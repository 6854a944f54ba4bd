import Technosphere.CInt
import Technosphere.IStream
import Technosphere.OrderedMap

/-!
# The routing table of the proxy

`read_routing_table` takes the configuration apart with `getline`: one line after
the other, and in a line with the delimiters `,` and `:` in turn, up to the end
of the stream. Its strings live longer than one pass of a loop, so a call that
fails leaves an old value behind.
-/

namespace Proxy

open Bytes CInt IStream

/-- `std::vector<std::pair<std::string, int>>`. -/
abbrev Route := List (List UInt8 × Int)

def comma : UInt8 := 44
def colon : UInt8 := 58
def newline : UInt8 := 10

/-- The strings of `read_routing_table`. -/
structure Strings where
  routeRecord : List UInt8
  strPort : List UInt8
  strIp : List UInt8

namespace Selector

/-- The inner loop, with the final values of `str_ip` and `str_port`. -/
def readEndpoints (streamline : IStream) (strIp strPort : List UInt8) (rt : Route) :
    Route × List UInt8 × List UInt8 :=
  if _ended : streamline.eofbit then (rt, strIp, strPort)
  else
    let ip := getline colon streamline strIp
    let port := getline comma ip.1 strPort
    readEndpoints port.1 ip.2 port.2 (rt ++ [(ip.2, atoi port.2)])
termination_by streamline.left
decreasing_by
  exact Nat.lt_of_le_of_lt (left_getline_le comma _ _)
    (left_getline_lt colon _ (eq_false_of_ne_true _ended))

/-- One pass of the outer loop, after the whitespace was removed. -/
def readRecord (v : Strings) (routingTable : OrderedMap Route) : Strings × OrderedMap Route :=
  if v.routeRecord.isEmpty then (v, routingTable)
  else
    let first := getline comma (ofText v.routeRecord) v.strPort
    -- `static_cast<unsigned short>`
    let port := atoi first.2 % 2 ^ 16
    let (rt, strIp, strPort) := readEndpoints first.1 v.strIp first.2 []
    (⟨v.routeRecord, strPort, strIp⟩, routingTable.insert port rt)

/-- The outer loop. -/
def readRecords (config : IStream) (v : Strings) (routingTable : OrderedMap Route) :
    OrderedMap Route :=
  if _ended : config.eofbit then routingTable
  else
    let line := getline newline config v.routeRecord
    let r := readRecord { v with routeRecord := line.2.filter (!isspace ·) } routingTable
    readRecords line.1 r.1 r.2
termination_by config.left
decreasing_by exact left_getline_lt newline _ (eq_false_of_ne_true _ended)

/-- `read_routing_table` with the content of the file, if it can be opened. -/
def readRoutingTable (config : Option (List UInt8)) : OrderedMap Route :=
  match config with
  | none => OrderedMap.empty.insert 9995 [(text "127.0.0.1", 9000)]
  | some content => readRecords (ofText content) ⟨[], [], []⟩ .empty

def getIncomingPorts (routingTable : OrderedMap Route) : List Int := routingTable.keys

/-- `select` with the value of `rand()`. Nothing is returned where `rand() % sz`
divides by zero. -/
def select (routingTable : OrderedMap Route) (port : Int) (rand : Nat) :
    Option (List UInt8 × Int) :=
  let targetRt := (routingTable.get? port).getD []
  let sz := toInt32 targetRt.length
  if sz = 0 then none
  else
    let idx := (rand : Int).tmod sz
    targetRt[idx.toNat]?

/-! ## The inner loop -/

variable {strIp strPort ip port more : List UInt8} {rt : Route}

theorem readEndpoints_of_eof {streamline : IStream} (ended : streamline.eofbit) :
    readEndpoints streamline strIp strPort rt = (rt, strIp, strPort) := by
  rw [readEndpoints, dif_pos ended]

/-- Without a colon the rest of the line is an address, and the port is an old one. -/
theorem readEndpoints_last (h : colon ∉ ip) :
    readEndpoints (ofText ip) strIp strPort rt = (rt ++ [(ip, atoi strPort)], ip, strPort) := by
  obtain ⟨ended, read⟩ := getline_last strIp h
  obtain ⟨ended', kept⟩ := getline_of_eof comma strPort ended
  rw [readEndpoints, dif_neg (Bool.eq_false_iff.mp (eofbit_ofText ip))]
  simp only [read, kept]
  exact readEndpoints_of_eof ended'

theorem readEndpoints_field (h : colon ∉ ip) (h' : comma ∉ port) :
    readEndpoints (ofText (ip ++ colon :: port)) strIp strPort rt =
      (rt ++ [(ip, atoi port)], ip, port) := by
  obtain ⟨ended, read⟩ := getline_last strPort h'
  rw [readEndpoints, dif_neg (Bool.eq_false_iff.mp (eofbit_ofText _)), getline_piece strIp h]
  simp only [read]
  exact readEndpoints_of_eof ended

theorem readEndpoints_more (h : colon ∉ ip) (h' : comma ∉ port) :
    readEndpoints (ofText (ip ++ colon :: (port ++ comma :: more))) strIp strPort rt =
      readEndpoints (ofText more) ip port (rt ++ [(ip, atoi port)]) := by
  rw [readEndpoints, dif_neg (Bool.eq_false_iff.mp (eofbit_ofText _)), getline_piece strIp h]
  simp only [getline_piece strPort h']

/-- Induction along the passes of the loop. -/
theorem endpoint_induction {motive : List UInt8 → Prop} (last : ∀ ip, colon ∉ ip → motive ip)
    (field : ∀ ip port, colon ∉ ip → comma ∉ port → motive (ip ++ colon :: port))
    (more : ∀ ip port more, colon ∉ ip → comma ∉ port → motive more →
      motive (ip ++ colon :: (port ++ comma :: more))) (s : List UInt8) : motive s := by
  induction size : s.length using Nat.strong_induction_on generalizing s with
  | _ n ih =>
    subst size
    by_cases found : colon ∈ s
    · obtain ⟨ip, rest, rfl, h⟩ := List.eq_append_cons_of_mem found
      by_cases found' : comma ∈ rest
      · obtain ⟨port, tail, rfl, h'⟩ := List.eq_append_cons_of_mem found'
        refine more ip port tail h h' (ih _ ?_ tail rfl)
        simp only [List.length_append, List.length_cons]
        omega
      · exact field ip rest h found'
    · exact last s found

/-- The endpoints that are read from the rest of a line. -/
def endpoints (s strPort : List UInt8) : Route := (readEndpoints (ofText s) [] strPort []).1

/-- What was in `str_ip` makes no difference, and the endpoints come behind those
that are there. -/
theorem readEndpoints_fst (s strIp strPort : List UInt8) (rt : Route) :
    (readEndpoints (ofText s) strIp strPort rt).1 = rt ++ endpoints s strPort := by
  induction s using endpoint_induction generalizing strIp strPort rt with
  | last ip h => rw [endpoints, readEndpoints_last h, readEndpoints_last h, List.nil_append]
  | field ip port h h' =>
      rw [endpoints, readEndpoints_field h h', readEndpoints_field h h', List.nil_append]
  | more ip port more h h' ih =>
      rw [endpoints, readEndpoints_more h h', readEndpoints_more h h', ih, ih, List.nil_append,
        List.append_assoc]

theorem endpoints_last (h : colon ∉ ip) : endpoints ip strPort = [(ip, atoi strPort)] := by
  rw [endpoints, readEndpoints_last h, List.nil_append]

theorem endpoints_field (h : colon ∉ ip) (h' : comma ∉ port) :
    endpoints (ip ++ colon :: port) strPort = [(ip, atoi port)] := by
  rw [endpoints, readEndpoints_field h h', List.nil_append]

theorem endpoints_more (h : colon ∉ ip) (h' : comma ∉ port) :
    endpoints (ip ++ colon :: (port ++ comma :: more)) strPort =
      (ip, atoi port) :: endpoints more port := by
  rw [endpoints, readEndpoints_more h h', readEndpoints_fst, List.nil_append]
  rfl

/-! ## Lines -/

/-- The port of a line: `atoi` of what stands before the first comma. -/
def recordPort (record : List UInt8) : Int :=
  atoi (record.takeWhile (· ≠ comma)) % 2 ^ 16

/-- The route that is stored for a line. -/
def recordRoute (record : List UInt8) : Route :=
  match Lines.cut comma record with
  | none => []
  | some (first, rest) => endpoints rest first

theorem takeWhile_of_notMem {s : List UInt8} (h : comma ∉ s) : s.takeWhile (· ≠ comma) = s :=
  List.takeWhile_eq_self_iff.mpr fun _ mem => decide_eq_true fun same => h (same ▸ mem)

theorem takeWhile_piece {first : List UInt8} (h : comma ∉ first) (rest : List UInt8) :
    (first ++ comma :: rest).takeWhile (· ≠ comma) = first := by
  rw [List.takeWhile_append_of_pos, List.takeWhile_cons_of_neg (by simp), List.append_nil]
  exact fun _ mem => decide_eq_true fun same => h (same ▸ mem)

theorem recordRoute_of_notMem {record : List UInt8} (h : comma ∉ record) :
    recordRoute record = [] := by
  rw [recordRoute, Lines.cut_of_notMem h]

theorem recordRoute_piece {first : List UInt8} (h : comma ∉ first) (rest : List UInt8) :
    recordRoute (first ++ comma :: rest) = endpoints rest first := by
  rw [recordRoute, Lines.cut_line h]

/-- A line stores one route, whatever the strings hold. -/
theorem readRecord_table {record : List UInt8} (some : record ≠ []) (strPort strIp : List UInt8)
    (routingTable : OrderedMap Route) :
    (readRecord ⟨record, strPort, strIp⟩ routingTable).2 =
      routingTable.insert (recordPort record) (recordRoute record) := by
  rw [readRecord, if_neg (by simpa using some)]
  by_cases found : comma ∈ record
  · obtain ⟨first, rest, rfl, h⟩ := List.eq_append_cons_of_mem found
    simp only [getline_piece strPort h]
    rw [readEndpoints_fst, recordRoute_piece h, recordPort, takeWhile_piece h, List.nil_append]
  · obtain ⟨ended, read⟩ := getline_last strPort found
    simp only [read]
    rw [readEndpoints_of_eof ended, recordRoute_of_notMem found, recordPort,
      takeWhile_of_notMem found]

/-- The lines of a text without their whitespace, and without those that are blank. -/
def records (content : List UInt8) : List (List UInt8) :=
  ((content.splitOn newline).map (·.filter (!isspace ·))).filter (· ≠ [])

theorem records_of_notMem {line : List UInt8} (h : newline ∉ line) :
    records line = [line.filter (!isspace ·)].filter (· ≠ []) := by
  rw [records, List.splitOn_eq_singleton h, List.map_singleton]

theorem records_append (content rest : List UInt8) :
    records (content ++ newline :: rest) = records content ++ records rest := by
  rw [records, List.splitOn_append_cons_self, List.map_append, List.filter_append, records,
    records]

/-- A line of the text is one pass of the outer loop. -/
theorem readRecord_fill (v : Strings) (routingTable : OrderedMap Route) :
    (readRecord v routingTable).2 =
      OrderedMap.fill recordPort recordRoute routingTable ([v.routeRecord].filter (· ≠ [])) := by
  obtain ⟨record, strPort, strIp⟩ := v
  by_cases blank : record = []
  · rw [blank]
    rfl
  · have kept : [record].filter (· ≠ []) = [record] := by simp [blank]
    rw [readRecord_table blank, kept]
    rfl

theorem readRecords_eq (content : List UInt8) (v : Strings) (routingTable : OrderedMap Route) :
    readRecords (ofText content) v routingTable =
      OrderedMap.fill recordPort recordRoute routingTable (records content) := by
  induction content using Lines.line_induction newline generalizing v routingTable with
  | last content h =>
      obtain ⟨ended, read⟩ := getline_last v.routeRecord h
      rw [readRecords, dif_neg (Bool.eq_false_iff.mp (eofbit_ofText content)), readRecords,
        dif_pos ended, read, readRecord_fill, records_of_notMem h]
  | line line rest h ih =>
      rw [readRecords, dif_neg (Bool.eq_false_iff.mp (eofbit_ofText _))]
      simp only [getline_piece v.routeRecord h]
      rw [ih, readRecord_fill, records_append, records_of_notMem h, OrderedMap.fill_append]

theorem readRoutingTable_eq (content : List UInt8) :
    readRoutingTable (some content) =
      OrderedMap.fill recordPort recordRoute .empty (records content) :=
  readRecords_eq content _ _

end Selector

end Proxy
