import Mathlib.Data.List.Nodup
import Technosphere.Proxy.Selector

/-!
# Configuration files

A routing table is written as one line for each port, in any order, with spaces
and tabs anywhere and blank lines between. What `read_routing_table` reads from
such a text is the table.
-/

namespace Proxy

open Bytes CInt IStream

/-- A remote server whose address can be written. -/
structure Endpoint where
  ip : List UInt8
  port : Nat
  some : ip ≠ []
  plain : ∀ chr ∈ ip, chr ≠ comma ∧ chr ≠ colon ∧ isspace chr = false
  small : port ≤ 65535

/-- A listening port and its servers. -/
structure Entry where
  port : Nat
  positive : 1 ≤ port
  small : port ≤ 65535
  route : List Endpoint
  some : route ≠ []

def Endpoint.value (e : Endpoint) : List UInt8 × Int := (e.ip, e.port)

/-- `ip:port`. -/
def Endpoint.write (e : Endpoint) : List UInt8 := e.ip ++ colon :: print e.port

def Entry.value (e : Entry) : Int × Route := (e.port, e.route.map Endpoint.value)

/-- `port,ip:port,...,ip:port`. -/
def Entry.write (e : Entry) : List UInt8 :=
  print e.port ++ comma :: [comma].intercalate (e.route.map Endpoint.write)

/-- A space or a tab. -/
def isBlank (chr : UInt8) : Bool := chr == 32 || chr == 9

/-- The lines of the text are those of the table, when spaces, tabs and blank
lines are left out. -/
def Written (table : List Entry) (content : List UInt8) : Prop :=
  ∃ (lines : List (List UInt8)) (final : Bool),
    content = [newline].intercalate lines ++ (if final then [newline] else []) ∧
      (∀ line ∈ lines, newline ∉ line) ∧
        (lines.map (·.filter (!isBlank ·))).filter (· ≠ []) = table.map Entry.write

namespace Selector

/-! ## Written lines -/

theorem notMem_print {n : Nat} {chr : UInt8} (h : isdigit chr = false) : chr ∉ print n := by
  intro mem
  rw [isdigit_of_mem_print mem] at h
  cases h

theorem isspace_print {n : Nat} {chr : UInt8} (h : chr ∈ print n) : isspace chr = false :=
  isspace_of_isdigit (isdigit_of_mem_print h)

theorem isspace_writeEndpoint (e : Endpoint) {chr : UInt8} (h : chr ∈ e.write) :
    isspace chr = false := by
  rcases List.mem_append.mp h with mem | mem
  · exact (e.plain chr mem).2.2
  · rcases List.mem_cons.mp mem with rfl | mem
    · rfl
    · exact isspace_print mem

theorem mem_intercalate {ls : List (List UInt8)} {sep chr : UInt8}
    (h : chr ∈ [sep].intercalate ls) : chr = sep ∨ ∃ l ∈ ls, chr ∈ l := by
  induction ls with
  | nil => exact absurd h List.not_mem_nil
  | cons l ls ih =>
      by_cases last : ls = []
      · rw [last, List.intercalate_singleton] at h
        exact .inr ⟨l, List.mem_cons_self, h⟩
      · rw [List.intercalate_cons_of_ne_nil last, List.append_assoc] at h
        rcases List.mem_append.mp h with mem | mem
        · exact .inr ⟨l, List.mem_cons_self, mem⟩
        rcases List.mem_cons.mp mem with same | mem
        · exact .inl same
        · exact (ih mem).imp_right fun ⟨l', later, mem⟩ =>
            ⟨l', List.mem_cons_of_mem _ later, mem⟩

/-- No whitespace is needed to write an entry. -/
theorem isspace_write (e : Entry) {chr : UInt8} (h : chr ∈ e.write) : isspace chr = false := by
  rcases List.mem_append.mp h with mem | mem
  · exact isspace_print mem
  rcases List.mem_cons.mp mem with rfl | mem
  · rfl
  rcases mem_intercalate mem with rfl | ⟨l, written, mem⟩
  · rfl
  · obtain ⟨endpoint, _, rfl⟩ := List.mem_map.mp written
    exact isspace_writeEndpoint endpoint mem

theorem recordPort_write (e : Entry) : recordPort e.write = e.port := by
  have small := e.small
  rw [recordPort, Entry.write, takeWhile_piece (notMem_print rfl), atoi_print (by omega)]
  omega

theorem endpoints_write {route : List Endpoint} (some : route ≠ []) (strPort : List UInt8) :
    endpoints ([comma].intercalate (route.map Endpoint.write)) strPort =
      route.map Endpoint.value := by
  induction route generalizing strPort with
  | nil => exact absurd rfl some
  | cons e route ih =>
      have noColon : colon ∉ e.ip := fun mem => (e.plain colon mem).2.1 rfl
      have noComma : comma ∉ print e.port := notMem_print rfl
      have port : atoi (print e.port) = e.port := atoi_print (by have := e.small; omega)
      by_cases last : route = []
      · rw [last, List.map_singleton, List.intercalate_singleton, Endpoint.write,
          endpoints_field noColon noComma, port]
        rfl
      · have more : route.map Endpoint.write ≠ [] := List.map_eq_nil_iff.not.mpr last
        rw [List.map_cons, List.intercalate_cons_of_ne_nil more, Endpoint.write, List.append_assoc,
          List.append_assoc, List.cons_append, List.singleton_append,
          endpoints_more noColon noComma, ih last, port]
        rfl

theorem recordRoute_write (e : Entry) : recordRoute e.write = e.route.map Endpoint.value := by
  rw [Entry.write, recordRoute_piece (notMem_print rfl), endpoints_write e.some]

/-! ## Written texts -/

theorem isspace_of_isBlank {chr : UInt8} (h : isBlank chr) : isspace chr := by
  rcases Bool.or_eq_true_iff.mp h with same | same <;> rw [beq_iff_eq.mp same] <;> rfl

/-- Where only blanks are missing from a written line, all whitespace is. -/
theorem filter_isspace_eq {line : List UInt8}
    (h : ∀ chr ∈ line.filter (!isBlank ·), isspace chr = false) :
    line.filter (!isspace ·) = line.filter (!isBlank ·) := by
  refine List.filter_congr fun chr mem => ?_
  by_cases blank : isBlank chr
  · rw [isspace_of_isBlank blank, blank]
  · rw [h chr (List.mem_filter.mpr ⟨mem, by simpa using blank⟩), eq_false_of_ne_true blank]

theorem records_intercalate {lines : List (List UInt8)} (whole : ∀ line ∈ lines, newline ∉ line) :
    records ([newline].intercalate lines) =
      (lines.map (·.filter (!isspace ·))).filter (· ≠ []) := by
  by_cases empty : lines = []
  · rw [empty]
    rfl
  · rw [records, List.splitOn_intercalate newline whole empty]

/-- The lines of a written text. -/
theorem records_of_written {table : List Entry} {content : List UInt8}
    (h : Written table content) : records content = table.map Entry.write := by
  obtain ⟨lines, final, rfl, whole, same⟩ := h
  have stripped : lines.map (·.filter (!isspace ·)) = lines.map (·.filter (!isBlank ·)) := by
    refine List.map_congr_left fun line mem => filter_isspace_eq fun chr inLine => ?_
    have written : line.filter (!isBlank ·) ∈ table.map Entry.write := by
      rw [← same, List.mem_filter]
      exact ⟨List.mem_map_of_mem mem, decide_eq_true (List.ne_nil_of_mem inLine)⟩
    obtain ⟨e, _, eq⟩ := List.mem_map.mp written
    exact isspace_write e (eq ▸ inLine)
  rw [← same, ← stripped]
  cases final
  · rw [if_neg Bool.false_ne_true, List.append_nil, records_intercalate whole]
  · rw [if_pos rfl, records_append, records_intercalate whole]
    exact List.append_nil _

theorem nodup_value {table : List Entry} (distinct : (table.map Entry.port).Nodup) :
    (table.map Entry.value).Nodup := by
  refine List.Nodup.of_map (fun value => value.1.toNat) ?_
  rw [List.map_map]
  exact distinct

theorem nodup_recordPort {table : List Entry} (distinct : (table.map Entry.port).Nodup) :
    ((table.map Entry.write).map recordPort).Nodup := by
  have read : recordPort ∘ Entry.write = Int.ofNat ∘ Entry.port := funext recordPort_write
  rw [List.map_map, read, ← List.map_map]
  exact distinct.map Int.ofNat_injective

/-- Whatever table was written, in whatever order and layout, is read back. -/
theorem readRoutingTable_of_written (table : List Entry)
    (distinct : (table.map Entry.port).Nodup) (content : List UInt8)
    (h : Written table content) :
    (readRoutingTable (some content)).entries.Perm (table.map Entry.value) := by
  rw [readRoutingTable_eq, records_of_written h]
  refine (List.perm_ext_iff_of_nodup (OrderedMap.nodup_entries _) (nodup_value distinct)).mpr ?_
  rintro ⟨port, route⟩
  rw [OrderedMap.mem_fill_iff (nodup_recordPort distinct)]
  constructor
  · rintro ⟨record, written, rfl, rfl⟩
    obtain ⟨e, mem, rfl⟩ := List.mem_map.mp written
    rw [recordPort_write, recordRoute_write]
    exact List.mem_map.mpr ⟨e, mem, rfl⟩
  · intro listed
    obtain ⟨e, mem, eq⟩ := List.mem_map.mp listed
    cases eq
    exact ⟨e.write, List.mem_map.mpr ⟨e, mem, rfl⟩, recordPort_write e, recordRoute_write e⟩

theorem plain_loopback : ∀ chr ∈ text "127.0.0.1",
    chr ≠ comma ∧ chr ≠ colon ∧ isspace chr = false := by
  have all : (text "127.0.0.1").all fun chr => chr != comma && chr != colon && !isspace chr := by
    decide
  simpa [List.all_eq_true, and_assoc] using all

/-- The table of `proxy.conf`. -/
def proxyConf : List Entry :=
  [⟨9995, by decide, by decide,
    [⟨text "127.0.0.1", 9000, by decide, plain_loopback, by decide⟩,
      ⟨text "127.0.0.1", 9001, by decide, plain_loopback, by decide⟩], by decide⟩]

/-- The shipped table, with some blanks and a blank line. -/
theorem readRoutingTable_of_written_shipped :
    ((proxyConf.map Entry.port).Nodup ∧
        Written proxyConf (text "9995, 127.0.0.1:9000,\t127.0.0.1:9001\n \n")) ∧
      (readRoutingTable (some (text "9995, 127.0.0.1:9000,\t127.0.0.1:9001\n \n"))).entries.Perm
        (proxyConf.map Entry.value) := by
  have written : Written proxyConf (text "9995, 127.0.0.1:9000,\t127.0.0.1:9001\n \n") :=
    ⟨[text "9995, 127.0.0.1:9000,\t127.0.0.1:9001", text " "], true, by decide, by decide,
      by decide⟩
  exact ⟨⟨by decide, written⟩, readRoutingTable_of_written proxyConf (by decide) _ written⟩

end Selector

end Proxy
