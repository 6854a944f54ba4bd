import Technosphere.Proxy.Selector

/-!
# Which routes a line can store

The number of endpoints of a line is the number of its separators: the first
comma, and then every comma with a colon between it and the separator before. A
line without any has an empty route, and `select` divides by its size.

A field without a colon is never left out: either it becomes a part of the next
address, or it is an address itself with an old string as its port.
-/

namespace Proxy

open Bytes CInt IStream Lines

namespace Selector

/-! ## Choosing an endpoint -/

/-- The number of separators; `seen` says that the next comma is one. -/
def separators : (seen : Bool) → List UInt8 → Nat
  | _, [] => 0
  | seen, chr :: s =>
    if chr = comma ∧ seen then separators false s + 1 else separators (seen || chr = colon) s

example : separators true (text "9995,a,b:1,,c:2:3") = 2 := by decide

theorem separators_of_colon_notMem {ip : List UInt8} (h : colon ∉ ip) (rest : List UInt8) :
    separators false (ip ++ rest) = separators false rest := by
  induction ip with
  | nil => rfl
  | cons chr ip ih =>
      obtain ⟨other, later⟩ := List.ne_and_not_mem_of_not_mem_cons h
      rw [List.cons_append, separators, if_neg (by simp), decide_eq_false (Ne.symm other),
        Bool.or_false, ih later]

theorem separators_of_comma_notMem {port : List UInt8} (h : comma ∉ port) (rest : List UInt8) :
    separators true (port ++ rest) = separators true rest := by
  induction port with
  | nil => rfl
  | cons chr port ih =>
      obtain ⟨other, later⟩ := List.ne_and_not_mem_of_not_mem_cons h
      rw [List.cons_append, separators, if_neg fun same => other same.1.symm, Bool.true_or,
        ih later]

theorem separators_colon (rest : List UInt8) :
    separators false (colon :: rest) = separators true rest := by
  rw [separators, if_neg (by decide), decide_eq_true rfl, Bool.or_true]

theorem separators_comma (rest : List UInt8) :
    separators true (comma :: rest) = separators false rest + 1 := by
  rw [separators, if_pos ⟨rfl, rfl⟩]

theorem separators_eq_zero_of_colon_notMem {ip : List UInt8} (h : colon ∉ ip) :
    separators false ip = 0 := by
  rw [← List.append_nil ip, separators_of_colon_notMem h, separators]

theorem separators_eq_zero_of_comma_notMem {port : List UInt8} (h : comma ∉ port) :
    separators true port = 0 := by
  rw [← List.append_nil port, separators_of_comma_notMem h, separators]

/-- There is one endpoint more than separators behind the first one. -/
theorem length_endpoints (s strPort : List UInt8) :
    (endpoints s strPort).length = separators false s + 1 := by
  induction s using endpoint_induction generalizing strPort with
  | last ip h =>
      rw [endpoints_last h, separators_eq_zero_of_colon_notMem h, List.length_singleton]
  | field ip port h h' =>
      rw [endpoints_field h h', separators_of_colon_notMem h, separators_colon,
        separators_eq_zero_of_comma_notMem h', List.length_singleton]
  | more ip port more h h' ih =>
      rw [endpoints_more h h', separators_of_colon_notMem h, separators_colon,
        separators_of_comma_notMem h', separators_comma, List.length_cons, ih]

theorem length_recordRoute (record : List UInt8) :
    (recordRoute record).length = separators true record := by
  by_cases found : comma ∈ record
  · obtain ⟨first, rest, rfl, h⟩ := List.eq_append_cons_of_mem found
    rw [recordRoute_piece h, length_endpoints, separators_of_comma_notMem h, separators_comma]
  · rw [recordRoute_of_notMem found, separators_eq_zero_of_comma_notMem found, List.length_nil]

/-- `select` finds a non-empty route, computes `rand() % sz` with a positive
`sz`, and returns an endpoint of the route. -/
def SelectsEndpoint (routingTable : OrderedMap Route) (port : Int) : Prop :=
  ∃ rt, routingTable.get? port = some rt ∧ rt ≠ [] ∧ 0 < toInt32 rt.length ∧
    ∀ rand : Nat, ∃ endpoint ∈ rt, select routingTable port rand = some endpoint

theorem selectsEndpoint_iff {routingTable : OrderedMap Route} {port : Int} {rt : Route}
    (found : routingTable.get? port = some rt) :
    SelectsEndpoint routingTable port ↔ 0 < toInt32 rt.length := by
  constructor
  · rintro ⟨rt', found', _, positive, _⟩
    rw [found] at found'
    cases found'
    exact positive
  · intro positive
    have small : toInt32 rt.length ≤ rt.length := toInt32_le (Int.natCast_nonneg _)
    refine ⟨rt, found, ?_, positive, fun rand => ?_⟩
    · rintro rfl
      exact absurd small (Int.not_le.mpr positive)
    · have low : 0 ≤ (rand : Int).tmod (toInt32 rt.length) :=
        Int.tmod_nonneg _ (Int.natCast_nonneg _)
      have high := Int.tmod_lt_of_pos rand positive
      have inside : ((rand : Int).tmod (toInt32 rt.length)).toNat < rt.length := by omega
      refine ⟨rt[((rand : Int).tmod (toInt32 rt.length)).toNat], List.getElem_mem inside, ?_⟩
      simp only [select, found, Option.getD_some, if_neg (Int.ne_of_gt positive)]
      exact List.getElem?_eq_getElem inside

/-- For every port an endpoint is selected whatever `rand()` returns if and only
if the last line for each port has separators, and not so many that the size of
the route is not positive as an `int`. -/
theorem select_finds_endpoint_iff (content : List UInt8) :
    (∀ port ∈ getIncomingPorts (readRoutingTable (some content)),
        SelectsEndpoint (readRoutingTable (some content)) port) ↔
      ∀ before record after, records content = before ++ record :: after →
        (∀ later ∈ after, recordPort later ≠ recordPort record) →
          0 < toInt32 (separators true record) := by
  constructor
  · intro all before record after split last
    have stored : (readRoutingTable (some content)).get? (recordPort record) =
        some (recordRoute record) := by
      rw [readRoutingTable_eq]
      exact OrderedMap.get?_fill_iff.mpr ⟨before, record, after, split, rfl, rfl, last⟩
    rw [← length_recordRoute]
    exact (selectsEndpoint_iff stored).mp (all _ (OrderedMap.mem_keys.mpr ⟨_, stored⟩))
  · intro positive port mem
    obtain ⟨rt, stored⟩ := OrderedMap.mem_keys.mp mem
    rw [selectsEndpoint_iff stored]
    rw [readRoutingTable_eq] at stored
    obtain ⟨before, record, after, split, rfl, rfl, last⟩ := OrderedMap.get?_fill_iff.mp stored
    rw [length_recordRoute]
    exact positive before record after split last

/-- A line that is only a port. -/
theorem select_divides_by_zero : ¬ ∀ content,
    ∀ port ∈ getIncomingPorts (readRoutingTable (some content)),
      SelectsEndpoint (readRoutingTable (some content)) port := by
  intro all
  have plain : comma ∉ text "9995" := by decide
  have stored : (readRoutingTable (some (text "9995"))).get? (recordPort (text "9995")) =
      some [] := by
    rw [readRoutingTable_eq]
    refine OrderedMap.get?_fill_iff.mpr ⟨[], text "9995", [], ?_, rfl,
      recordRoute_of_notMem plain, List.forall_mem_nil _⟩
    rw [records_of_notMem (by decide)]
    rfl
  have positive := (selectsEndpoint_iff stored).mp
    (all (text "9995") _ (OrderedMap.mem_keys.mpr ⟨_, stored⟩))
  rw [List.length_nil, toInt32_of_lt (by decide) (by decide)] at positive
  exact absurd positive (by decide)

/-! ## The fields of a line -/

/-- The comma-separated fields after the first one. -/
def fields (record : List UInt8) : List (List UInt8) := (record.splitOn comma).tail

/-- The endpoint that a field gives: what stands before and behind its first colon. -/
def endpointOf (field : List UInt8) : List UInt8 × Int :=
  (field.takeWhile (· ≠ colon), atoi (field.dropWhile (· ≠ colon)).tail)

theorem endpointOf_field {ip : List UInt8} (h : colon ∉ ip) (port : List UInt8) :
    endpointOf (ip ++ colon :: port) = (ip, atoi port) := by
  have before : ∀ chr ∈ ip, decide (chr ≠ colon) = true :=
    fun _ mem => decide_eq_true fun same => h (same ▸ mem)
  rw [endpointOf, List.takeWhile_append_of_pos before, List.takeWhile_cons_of_neg (by simp),
    List.dropWhile_append_of_pos before, List.dropWhile_cons_of_neg (by simp), List.append_nil,
    List.tail_cons]

/-- Fields have no comma, and consist of text of the line. -/
theorem of_mem_splitOn {s field : List UInt8} (h : field ∈ s.splitOn comma) :
    comma ∉ field ∧ ∀ chr ∈ field, chr ∈ s := by
  induction s using line_induction comma with
  | last s notMem =>
      rw [List.splitOn_eq_singleton notMem, List.mem_singleton] at h
      subst h
      exact ⟨notMem, fun _ mem => mem⟩
  | line first rest notMem ih =>
      rw [List.splitOn_append_cons_self_of_not_mem notMem] at h
      rcases List.mem_cons.mp h with rfl | later
      · exact ⟨notMem, fun chr mem => List.mem_append_left _ mem⟩
      · obtain ⟨plain, own⟩ := ih later
        exact ⟨plain, fun chr mem => List.mem_append_right _ (List.mem_cons_of_mem _ (own chr mem))⟩

theorem comma_notMem_endpointOf {field : List UInt8} (h : comma ∉ field) :
    comma ∉ (endpointOf field).1 :=
  fun mem => h (List.takeWhile_subset _ mem)

variable {form : List UInt8 → Bool}

/-- An address that spans two fields is not that of a field. -/
theorem ne_of_comma_mem {ip : List UInt8} (h : comma ∈ ip) (port : Int) (rt : Route)
    (s : List UInt8) : (ip, port) :: rt ≠ ((s.splitOn comma).filter form).map endpointOf := by
  intro same
  have first : (ip, port) ∈ ((s.splitOn comma).filter form).map endpointOf :=
    same ▸ List.mem_cons_self
  obtain ⟨field, mem, eq⟩ := List.mem_map.mp first
  have plain := comma_notMem_endpointOf (of_mem_splitOn (List.mem_filter.mp mem).1).1
  rw [eq] at plain
  exact plain h

/-- Where an address spans two fields, the first of them has no colon. -/
theorem exists_field_without_colon {ip : List UInt8} (h : comma ∈ ip) (h' : colon ∉ ip)
    (rest : List UInt8) : ∃ field ∈ (ip ++ rest).splitOn comma, colon ∉ field := by
  obtain ⟨field, tail, rfl, plain⟩ := List.eq_append_cons_of_mem h
  refine ⟨field, ?_, fun mem => h' (List.mem_append_left _ mem)⟩
  rw [List.append_assoc, List.cons_append, List.splitOn_append_cons_self_of_not_mem plain]
  exact List.mem_cons_self

theorem comma_notMem_field {ip port : List UInt8} (h : comma ∉ ip) (h' : comma ∉ port) :
    comma ∉ ip ++ colon :: port := by
  simpa [h, h'] using (by decide : comma ≠ colon)

/-- One pass of the loop takes one field with a colon. -/
theorem countP_field {ip port : List UInt8} (h : colon ∉ ip) (h' : comma ∉ port) :
    ((ip ++ colon :: port).splitOn comma).countP (·.contains colon) = 1 := by
  induction ip using line_induction comma with
  | last ip plain =>
      rw [List.splitOn_eq_singleton (comma_notMem_field plain h'), List.countP_singleton,
        if_pos (by simp)]
  | line field tail plain ih =>
      have without : colon ∉ field := fun mem => h (List.mem_append_left _ mem)
      have later : colon ∉ tail :=
        fun mem => h (List.mem_append_right _ (List.mem_cons_of_mem _ mem))
      rw [List.append_assoc, List.cons_append, List.splitOn_append_cons_self_of_not_mem plain,
        List.countP_cons_of_neg (by simpa using without)]
      exact ih later

theorem countP_le_length (s strPort : List UInt8) :
    (s.splitOn comma).countP (·.contains colon) ≤ (endpoints s strPort).length := by
  induction s using endpoint_induction generalizing strPort with
  | last ip h =>
      have none : (ip.splitOn comma).countP (·.contains colon) = 0 :=
        List.countP_eq_zero.mpr fun field mem found =>
          h ((of_mem_splitOn mem).2 _ (by simpa using found))
      rw [none]
      exact Nat.zero_le _
  | field ip port h h' => rw [countP_field h h', endpoints_field h h', List.length_singleton]
  | more ip port more h h' ih =>
      rw [endpoints_more h h', ← List.cons_append, ← List.append_assoc,
        List.splitOn_append_cons_self, List.countP_append, countP_field h h', List.length_cons,
        Nat.add_comm]
      exact Nat.succ_le_succ (ih port)

/-- The endpoints are those of the fields with the form exactly if no field lacks it. -/
theorem endpoints_eq_iff (colons : ∀ field, form field → colon ∈ field) (s strPort : List UInt8) :
    endpoints s strPort = ((s.splitOn comma).filter form).map endpointOf ↔
      ∀ field ∈ s.splitOn comma, form field := by
  induction s using endpoint_induction generalizing strPort with
  | last ip h =>
      have none : ∀ field ∈ ip.splitOn comma, ¬ form field := fun field mem formed =>
        h ((of_mem_splitOn mem).2 _ (colons field formed))
      obtain ⟨field, mem⟩ := List.exists_mem_of_ne_nil _ (List.splitOn_ne_nil comma ip)
      refine iff_of_false ?_ fun all => none field mem (all field mem)
      rw [endpoints_last h, List.filter_eq_nil_iff.mpr none]
      exact List.cons_ne_nil _ _
  | field ip port h h' =>
      rw [endpoints_field h h']
      by_cases found : comma ∈ ip
      · obtain ⟨field, mem, without⟩ := exists_field_without_colon found h (colon :: port)
        exact iff_of_false (ne_of_comma_mem found _ _ _)
          fun all => without (colons field (all field mem))
      · rw [List.splitOn_eq_singleton (comma_notMem_field found h')]
        by_cases formed : form (ip ++ colon :: port)
        · refine iff_of_true ?_ (List.forall_mem_singleton.mpr formed)
          rw [List.filter_cons_of_pos formed, List.filter_nil, List.map_singleton,
            endpointOf_field h]
        · refine iff_of_false ?_ fun all => formed (all _ (List.mem_singleton_self _))
          rw [List.filter_cons_of_neg formed]
          exact List.cons_ne_nil _ _
  | more ip port more h h' ih =>
      rw [endpoints_more h h']
      by_cases found : comma ∈ ip
      · obtain ⟨field, mem, without⟩ := exists_field_without_colon found h
          (colon :: (port ++ comma :: more))
        exact iff_of_false (ne_of_comma_mem found _ _ _)
          fun all => without (colons field (all field mem))
      · rw [← List.cons_append, ← List.append_assoc,
          List.splitOn_append_cons_self_of_not_mem (comma_notMem_field found h'),
          List.forall_mem_cons]
        by_cases formed : form (ip ++ colon :: port)
        · rw [List.filter_cons_of_pos formed, List.map_cons, endpointOf_field h,
            List.cons_inj_right, ih port]
          exact ⟨fun all => ⟨formed, all⟩, fun all => all.2⟩
        · rw [List.filter_cons_of_neg formed]
          refine iff_of_false (fun same => ?_) fun all => formed all.1
          -- The pass for a field without the form is one endpoint too many.
          have lengths := congrArg List.length same
          have few : ((more.splitOn comma).filter form).length ≤ (endpoints more port).length := by
            rw [← List.countP_eq_length_filter]
            refine (List.countP_mono_left fun field _ formed => ?_).trans
              (countP_le_length more port)
            simpa using colons field formed
          rw [List.length_cons, List.length_map] at lengths
          omega

theorem fields_of_notMem {record : List UInt8} (h : comma ∉ record) : fields record = [] := by
  rw [fields, List.splitOn_eq_singleton h, List.tail_cons]

theorem fields_piece {first : List UInt8} (h : comma ∉ first) (rest : List UInt8) :
    fields (first ++ comma :: rest) = rest.splitOn comma := by
  rw [fields, List.splitOn_append_cons_self_of_not_mem h, List.tail_cons]

theorem recordRoute_eq_iff (colons : ∀ field, form field → colon ∈ field) (record : List UInt8) :
    recordRoute record = ((fields record).filter form).map endpointOf ↔
      ∀ field ∈ fields record, form field := by
  by_cases found : comma ∈ record
  · obtain ⟨first, rest, rfl, h⟩ := List.eq_append_cons_of_mem found
    rw [recordRoute_piece h, fields_piece h]
    exact endpoints_eq_iff colons rest first
  · rw [recordRoute_of_notMem found, fields_of_notMem found]
    exact iff_of_true rfl (List.forall_mem_nil _)

/-- The route that a pass over a line stores, with whatever is left in the strings
and in the table from the lines before, consists of the endpoints of the fields
that have the form `ip:port` if and only if all fields have it. The form may be
as narrow as one likes, but it includes a colon. -/
theorem stored_route_eq_iff (form : List UInt8 → Bool)
    (colons : ∀ field, form field → colon ∈ field) (record : List UInt8) (some : record ≠ [])
    (strPort strIp : List UInt8) (routingTable : OrderedMap Route) :
    (readRecord ⟨record, strPort, strIp⟩ routingTable).2.get? (recordPort record) =
        Option.some (((fields record).filter form).map endpointOf) ↔
      ∀ field ∈ fields record, form field := by
  rw [readRecord_table some, OrderedMap.get?_insert, if_pos rfl, Option.some_inj]
  exact recordRoute_eq_iff colons record

theorem stored_route_eq_iff_two_fields : colon ∈ text "a:1" ∧ text "7,a:1,b" ≠ [] ∧
    ((readRecord ⟨text "7,a:1,b", [], []⟩ .empty).2.get? (recordPort (text "7,a:1,b")) =
        some (((fields (text "7,a:1,b")).filter (· == text "a:1")).map endpointOf) ↔
      ∀ field ∈ fields (text "7,a:1,b"), field == text "a:1") :=
  ⟨by decide, by decide, stored_route_eq_iff (· == text "a:1")
    (fun field same => (beq_iff_eq.mp same).symm ▸ (by decide : colon ∈ text "a:1"))
    (text "7,a:1,b") (by decide) [] [] .empty⟩

/-- Behind the last comma of this line is a field without any text, and the route
gets an endpoint at the listening port itself. -/
theorem route_to_own_port : ¬ ∀ (form : List UInt8 → Bool),
    (∀ field, form field → colon ∈ field) → ∀ record : List UInt8, record ≠ [] →
      ∀ (strPort strIp : List UInt8) (routingTable : OrderedMap Route),
        (readRecord ⟨record, strPort, strIp⟩ routingTable).2.get? (recordPort record) =
          some (((fields record).filter form).map endpointOf) := by
  intro all
  have stored := all (·.contains colon) (fun _ found => by simpa using found) (text "9995,")
    (by decide) [] [] .empty
  have line : text "9995," = text "9995" ++ comma :: [] := rfl
  have own : recordRoute (text "9995,") = [([], atoi (text "9995"))] := by
    rw [line, recordRoute_piece (by decide), endpoints_last List.not_mem_nil]
  rw [readRecord_table (by decide), OrderedMap.get?_insert, if_pos rfl, own, Option.some_inj, line,
    fields_piece (by decide)] at stored
  exact absurd stored (List.cons_ne_nil _ _)

end Selector

end Proxy
