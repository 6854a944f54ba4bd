import Technosphere.Proxy.ProxyListener
import Technosphere.Proxy.Selector

/-!
# The whole proxy

`Server::start` reads the ports from the routing table and starts a listener for
each of them, but `ProxyListener::start` only returns when its event loop has
ended. So the ports are served one after the other, and each signal or broken
loop makes the proxy go on to the next one.

`served_in_turn` says what the proxy has accepted, on which port and for which
endpoint, in every run of the program.
-/

namespace Proxy

open Bytes CInt Transition

/-- The listener whose event loop runs, and whether SIGINT has told it to end. -/
structure Listening where
  port : Int
  listener : ProxyListener
  interrupted : Bool

/-- What `listener_cb` has made of an accepted socket. -/
structure Accepted where
  port : Int
  id : Nat
  endpoint : List UInt8 × Int

/-- How the process can die. -/
inductive Death where
  /-- `rand() % sz` with `sz = 0`, in `select` for this port. -/
  | divided (port : Int)
  /-- SIGINT, when no listener has its signal event. -/
  | interrupted
  deriving DecidableEq

/-- `ports` are those that the loop of `start` has not reached, and `past` the
listeners whose `start` has returned. `accepted` is not in the code. -/
structure Server where
  routingTable : OrderedMap Route
  ports : List Int
  current : Option Listening
  past : List (Int × ProxyListener)
  idBase : Nat
  accepted : List Accepted
  death : Option Death

namespace Server

/-- The constructor, and the beginning of `start`. -/
def start (config : Option (List UInt8)) : Server :=
  let routingTable := Selector.readRoutingTable config
  ⟨routingTable, Selector.getIncomingPorts routingTable, none, [], 0, [], none⟩

inductive Act where
  /-- `start` of the next listener, up to its event loop if nothing fails. -/
  | listen (succeeds : Bool)
  /-- `listener_cb`, with the value of `rand()`. -/
  | accept (o : Outcomes) (rand : Nat)
  /-- Something happens on a side of a connection, or its end of file. -/
  | event (id : Nat) (a : Proxy.Act)
  /-- `conn_eventcb` is called with an error. -/
  | error (id : Nat) (bev : Side)
  /-- SIGINT. -/
  | interrupt
  /-- The event loop ends: two seconds after `signal_cb`, or by `loopbreak`. -/
  | leave

/-- Something happens in the event loop. `Connection::id_base` is shared by all
listeners. -/
def within (s : Server) (a : ProxyListener.Act) (accepted : List Accepted) : Option Server :=
  match s.current with
  | none => none
  | some l => (ProxyListener.step l.listener a).map fun t =>
    { s with
      current := some { l with listener := t }
      idBase := t.idBase
      accepted := s.accepted ++ accepted }

/-- `listener_cb`, with the result of `select`. -/
def listenerCb (s : Server) (l : Listening) (o : Outcomes) :
    Option (List UInt8 × Int) → Option Server
  | some endpoint => s.within (.accept o) [⟨l.port, l.listener.idBase, endpoint⟩]
  | none => if l.listener.stopped then none else some { s with death := some (.divided l.port) }

def step (s : Server) (a : Act) : Option Server :=
  if s.death.isSome then none
  else match a with
    | .listen succeeds =>
      match s.current, s.ports with
      | none, port :: ports =>
        let listener := ProxyListener.start s.idBase
        if succeeds then some { s with ports := ports, current := some ⟨port, listener, false⟩ }
        else some { s with ports := ports, past := s.past ++ [(port, listener)] }
      | _, _ => none
    | .accept o rand =>
      match s.current with
      | some l => s.listenerCb l o (Selector.select s.routingTable l.port rand)
      | none => none
    | .event id a => s.within (.event id a) []
    | .error id bev => s.within (.error id bev) []
    | .interrupt =>
      match s.current, s.ports with
      | some l, _ => some { s with current := some { l with interrupted := true } }
      | none, _ :: _ => some { s with death := some .interrupted }
      | none, [] => none
    | .leave =>
      match s.current with
      | some l =>
        if l.interrupted ∨ l.listener.stopped then
          some { s with current := none, past := s.past ++ [(l.port, l.listener)] }
        else none
      | none => none

/-- The last line of the configuration for the port names the endpoint. Without
a configuration there is one port with one endpoint. -/
def Configured (config : Option (List UInt8)) (port : Int) (endpoint : List UInt8 × Int) : Prop :=
  match config with
  | none => port = 9995 ∧ endpoint = (text "127.0.0.1", 9000)
  | some content => ∃ before record after, Selector.records content = before ++ record :: after ∧
      Selector.recordPort record = port ∧
      (∀ later ∈ after, Selector.recordPort later ≠ port) ∧
      endpoint ∈ Selector.recordRoute record

/-- What makes the proxy go on to its next port: a listener that cannot be
started, a signal, or an accept that breaks the loop. -/
def GivesUp : Act → Bool
  | .listen succeeds => !succeeds
  | .accept o _ => (establish o).loopbreak
  | .interrupt => true
  | .event _ _ | .error _ _ | .leave => false

/-- The event loop is about to end. -/
def leaving (s : Server) : Bool :=
  match s.current with
  | some l => l.interrupted || l.listener.stopped
  | none => false

/-! ## Single steps -/

section Listeners

variable {s t : ProxyListener} {a : ProxyListener.Act}

theorem idBase_afterCallback (s : ProxyListener) (id : Nat) (c : Connection) :
    (s.afterCallback id c).idBase = s.idBase ∧ (s.afterCallback id c).stopped = s.stopped := by
  rw [ProxyListener.afterCallback]
  split <;> exact ⟨rfl, rfl⟩

theorem running_of_step (taken : ProxyListener.step s a = some t) : s.stopped = false := by
  by_contra stopped
  rw [Bool.not_eq_false] at stopped
  simp [ProxyListener.step, stopped] at taken

theorem accept_inv {o : Outcomes} (taken : ProxyListener.step s (.accept o) = some t) :
    t.idBase = s.idBase + 1 ∧ t.stopped = (establish o).loopbreak := by
  obtain ⟨o', same, rfl⟩ | ⟨other, _⟩ := ProxyListener.step_cases taken
  · cases same
    exact ⟨rfl, rfl⟩
  · exact absurd rfl (other o)

theorem callback_inv (other : ∀ o, a ≠ .accept o) (taken : ProxyListener.step s a = some t) :
    t.idBase = s.idBase ∧ t.stopped = false := by
  have running := running_of_step taken
  obtain ⟨o, rfl, _⟩ | ⟨_, id, c, _, rfl⟩ := ProxyListener.step_cases taken
  · exact absurd rfl (other o)
  · obtain ⟨ids, stopped⟩ := idBase_afterCallback s id c
    exact ⟨ids, stopped.trans running⟩

end Listeners

/-- What a step makes of the proxy. -/
inductive Change (s : Server) : Act → Server → Prop where
  | listen {port : Int} {ports : List Int} (idle : s.current = none)
      (next : s.ports = port :: ports) :
      Change s (.listen true)
        { s with ports := ports, current := some ⟨port, .start s.idBase, false⟩ }
  | skip {port : Int} {ports : List Int} (idle : s.current = none)
      (next : s.ports = port :: ports) :
      Change s (.listen false)
        { s with ports := ports, past := s.past ++ [(port, .start s.idBase)] }
  | accept {l : Listening} {o : Outcomes} {rand : Nat} {endpoint : List UInt8 × Int}
      {u : ProxyListener} (current : s.current = some l)
      (selected : Selector.select s.routingTable l.port rand = some endpoint)
      (taken : ProxyListener.step l.listener (.accept o) = some u) :
      Change s (.accept o rand)
        { s with
          current := some { l with listener := u }
          idBase := u.idBase
          accepted := s.accepted ++ [⟨l.port, l.listener.idBase, endpoint⟩] }
  | divide {l : Listening} {o : Outcomes} {rand : Nat} (current : s.current = some l)
      (nothing : Selector.select s.routingTable l.port rand = none) :
      Change s (.accept o rand) { s with death := some (.divided l.port) }
  | callback {l : Listening} {a : Act} {u : ProxyListener} (current : s.current = some l)
      (same : u.idBase = l.listener.idBase) (running : u.stopped = false) :
      Change s a { s with current := some { l with listener := u }, idBase := u.idBase }
  | interrupt {l : Listening} (current : s.current = some l) :
      Change s .interrupt { s with current := some { l with interrupted := true } }
  | die : Change s .interrupt { s with death := some .interrupted }
  | leave {l : Listening} (current : s.current = some l)
      (ends : l.interrupted ∨ l.listener.stopped) :
      Change s .leave { s with current := none, past := s.past ++ [(l.port, l.listener)] }

section Steps

variable {s t : Server} {a : Act}

theorem within_inv {a : ProxyListener.Act} {accepted : List Accepted}
    (taken : s.within a accepted = some t) :
    ∃ l u, s.current = some l ∧ ProxyListener.step l.listener a = some u ∧
      t = { s with
        current := some { l with listener := u }
        idBase := u.idBase
        accepted := s.accepted ++ accepted } := by
  rw [within] at taken
  cases current : s.current with
  | none =>
      rw [current] at taken
      cases taken
  | some l =>
      rw [current] at taken
      obtain ⟨u, moved, rfl⟩ := Option.map_eq_some_iff.mp taken
      exact ⟨l, u, rfl, moved, rfl⟩

theorem change_of_callback {a : Act} {b : ProxyListener.Act} (other : ∀ o, b ≠ .accept o)
    (taken : s.within b [] = some t) : Change s a t := by
  obtain ⟨l, u, current, moved, rfl⟩ := within_inv taken
  obtain ⟨same, running⟩ := callback_inv other moved
  rw [List.append_nil]
  exact .callback current same running

theorem change_of_step (taken : s.step a = some t) : Change s a t := by
  unfold step at taken
  split at taken
  · cases taken
  cases a with
  | listen succeeds =>
      dsimp only at taken
      split at taken
      · rename_i idle next
        cases succeeds with
        | true => exact Option.some.inj taken ▸ .listen idle next
        | false => exact Option.some.inj taken ▸ .skip idle next
      · cases taken
  | accept o rand =>
      dsimp only at taken
      split at taken
      · rename_i l current
        cases selected : Selector.select s.routingTable l.port rand with
        | some endpoint =>
            rw [selected] at taken
            obtain ⟨l', u, here, moved, rfl⟩ := within_inv taken
            obtain rfl := Option.some.inj (current.symm.trans here)
            exact .accept current selected moved
        | none =>
            rw [selected] at taken
            obtain ⟨_, same⟩ := Option.ite_none_left_eq_some.mp taken
            exact Option.some.inj same ▸ .divide current selected
      · cases taken
  | event id a => exact change_of_callback (fun _ => ProxyListener.Act.noConfusion) taken
  | error id bev => exact change_of_callback (fun _ => ProxyListener.Act.noConfusion) taken
  | interrupt =>
      dsimp only at taken
      split at taken
      · rename_i current
        exact Option.some.inj taken ▸ .interrupt current
      · exact Option.some.inj taken ▸ .die
      · cases taken
  | leave =>
      dsimp only at taken
      split at taken
      · rename_i current
        obtain ⟨ends, same⟩ := Option.ite_none_right_eq_some.mp taken
        exact Option.some.inj same ▸ .leave current ends
      · cases taken

end Steps

/-! ## Selecting a server -/

section Selecting

variable {routingTable : OrderedMap Route} {port : Int} {rt : Route} {rand : Nat}

theorem mem_of_select (found : routingTable.get? port = some rt) {endpoint : List UInt8 × Int}
    (selected : Selector.select routingTable port rand = some endpoint) : endpoint ∈ rt := by
  simp only [Selector.select, found, Option.getD_some] at selected
  split at selected
  · cases selected
  · exact List.mem_of_getElem? selected

/-- Nothing but a division by zero keeps `select` from its result. -/
theorem size_of_select_none (found : routingTable.get? port = some rt)
    (nothing : Selector.select routingTable port rand = none) : toInt32 rt.length = 0 := by
  by_contra some'
  simp only [Selector.select, found, Option.getD_some, if_neg some'] at nothing
  have outside : rt.length ≤ ((rand : Int).tmod (toInt32 rt.length)).toNat :=
    List.getElem?_eq_none_iff.mp nothing
  have inside : ((rand : Int).tmod (toInt32 rt.length)).natAbs < (toInt32 rt.length).natAbs := by
    rw [Int.natAbs_tmod]
    exact Nat.mod_lt _ (Int.natAbs_pos.mpr some')
  -- the size is the length, or the length is larger than every `int`
  have size : (toInt32 rt.length).natAbs ≤ rt.length := by
    by_cases fits : (rt.length : Int) < 2 ^ 31
    · rw [toInt32_of_lt (by omega) fits, Int.natAbs_natCast]
    · obtain ⟨low, high⟩ := toInt32_bounds rt.length
      omega
  omega

theorem getIncomingPorts_increasing (routingTable : OrderedMap Route) :
    (Selector.getIncomingPorts routingTable).Pairwise (· < ·) :=
  List.pairwise_map.mpr routingTable.increasing

/-- What is stored for a port comes from the configuration. -/
theorem configured_of_stored {config : Option (List UInt8)}
    (stored : (Selector.readRoutingTable config).get? port = some rt)
    {endpoint : List UInt8 × Int} (mem : endpoint ∈ rt) : Configured config port endpoint := by
  cases config with
  | none =>
      rw [Selector.readRoutingTable, OrderedMap.get?_insert] at stored
      split at stored
      · rename_i same
        cases stored
        exact ⟨same, List.mem_singleton.mp mem⟩
      · cases stored
  | some content =>
      rw [Selector.readRoutingTable_eq] at stored
      obtain ⟨before, record, after, split, rfl, rfl, last⟩ := OrderedMap.get?_fill_iff.mp stored
      exact ⟨before, record, after, split, rfl, last, mem⟩

end Selecting

/-! ## What holds in every state -/

/-- The ports from the one that is served on. -/
def ahead (s : Server) : List Int := (s.current.map Listening.port).toList ++ s.ports

structure Inv (config : Option (List UInt8)) (acts : List Act) (s : Server) : Prop where
  table : s.routingTable = Selector.readRoutingTable config
  turn : s.past.map Prod.fst ++ s.ahead = Selector.getIncomingPorts s.routingTable
  counter : ∀ l, s.current = some l → l.listener.idBase = s.idBase
  ids : s.accepted.map Accepted.id = List.range s.idBase
  configured : ∀ c ∈ s.accepted, Configured config c.port c.endpoint
  order : s.accepted.Pairwise fun c c' => c.port ≤ c'.port
  behind : ∀ c ∈ s.accepted, ∀ port ∈ s.ahead, c.port ≤ port
  given : s.past.length + s.leaving.toNat ≤ acts.countP GivesUp
  death : ∀ port, s.death = some (.divided port) →
    ∃ rt, s.routingTable.get? port = some rt ∧ toInt32 rt.length = 0

section Invariant

variable {config : Option (List UInt8)} {acts : List Act} {s t : Server} {a : Act}

theorem Inv.start (config : Option (List UInt8)) : Inv config [] (start config) where
  table := rfl
  turn := rfl
  counter _ current := nomatch current
  ids := rfl
  configured := List.forall_mem_nil _
  order := .nil
  behind := List.forall_mem_nil _
  given := Nat.le_refl _
  death _ died := nomatch died

/-- The port that is served has a route. -/
theorem Inv.stored (h : Inv config acts s) {l : Listening} (current : s.current = some l) :
    ∃ rt, s.routingTable.get? l.port = some rt := by
  have mem : l.port ∈ Selector.getIncomingPorts s.routingTable := by
    rw [← h.turn, ahead, current]
    simp
  exact OrderedMap.mem_keys.mp mem

/-- The port that is served comes before those that are not reached. -/
theorem Inv.first (h : Inv config acts s) {l : Listening} (current : s.current = some l) :
    ∀ port ∈ s.ahead, l.port ≤ port := by
  have increasing := getIncomingPorts_increasing s.routingTable
  have here : s.ahead = l.port :: s.ports := by simp [ahead, current]
  rw [← h.turn, here] at increasing
  have later := (List.pairwise_cons.mp (List.pairwise_append.mp increasing).2.1).1
  intro port mem
  rw [here] at mem
  obtain rfl | mem := List.mem_cons.mp mem
  · exact Int.le_refl _
  · exact Int.le_of_lt (later port mem)

theorem countP_snoc (acts : List Act) (a : Act) :
    (acts ++ [a]).countP GivesUp = acts.countP GivesUp + (GivesUp a).toNat := by
  rw [List.countP_append, List.countP_singleton]
  cases GivesUp a <;> rfl

/-- Nothing but the listener that is served changes. -/
theorem ahead_current {l : Listening} (current : s.current = some l) (u : ProxyListener)
    (interrupted : Bool) :
    ahead { s with current := some ⟨l.port, u, interrupted⟩ } = s.ahead := by
  simp [ahead, current]

theorem Inv.listen (h : Inv config acts s) {port : Int} {ports : List Int}
    (idle : s.current = none) (next : s.ports = port :: ports) :
    Inv config (acts ++ [.listen true])
      { s with ports := ports, current := some ⟨port, .start s.idBase, false⟩ } := by
  have here : port :: ports = s.ahead := by simp [ahead, idle, next]
  have given := h.given
  refine { h with
    turn := (congrArg (_ ++ ·) here).trans h.turn
    counter := ?_
    behind := fun c mem port' later => h.behind c mem port' (here ▸ later)
    given := ?_ }
  · rintro _ ⟨⟩
    rfl
  · rw [countP_snoc]
    simpa [leaving, idle, ProxyListener.start, GivesUp] using given

/-- The first port ahead is passed by. -/
theorem Inv.pass (h : Inv config acts s) {port : Int} {ports : List Int}
    (here : s.ahead = port :: ports) (listener : ProxyListener)
    (given : s.past.length + 1 ≤ (acts ++ [a]).countP GivesUp) :
    Inv config (acts ++ [a])
      { s with ports := ports, current := none, past := s.past ++ [(port, listener)] } := by
  have turn := h.turn
  rw [here] at turn
  refine { h with
    turn := ?_
    counter := nofun
    behind := fun c mem port' later => h.behind c mem port' ?_
    given := ?_ }
  · simpa [ahead] using turn
  · rw [here]
    exact List.mem_cons_of_mem _ later
  · rw [List.length_append]
    exact given

theorem Inv.skip (h : Inv config acts s) {port : Int} {ports : List Int}
    (idle : s.current = none) (next : s.ports = port :: ports) :
    Inv config (acts ++ [.listen false])
      { s with ports := ports, past := s.past ++ [(port, .start s.idBase)] } := by
  have here : s.ahead = port :: ports := by simp [ahead, idle, next]
  have more : s.past.length + 1 ≤ (acts ++ [Act.listen false]).countP GivesUp := by
    rw [countP_snoc]
    exact Nat.add_le_add_right ((Nat.le_add_right _ _).trans h.given) 1
  have passed := h.pass here (.start s.idBase) more
  rw [← idle] at passed
  exact passed

theorem Inv.leave (h : Inv config acts s) {l : Listening} (current : s.current = some l)
    (ends : l.interrupted ∨ l.listener.stopped) :
    Inv config (acts ++ [.leave])
      { s with current := none, past := s.past ++ [(l.port, l.listener)] } := by
  have here : s.ahead = l.port :: s.ports := by simp [ahead, current]
  have about : s.leaving = true := by simp [leaving, current, ends]
  have given := h.given
  rw [about] at given
  refine h.pass here l.listener ?_
  rw [countP_snoc]
  exact given.trans (Nat.le_add_right _ _)

theorem Inv.accept (h : Inv config acts s) {l : Listening} {o : Outcomes} {rand : Nat}
    {endpoint : List UInt8 × Int} {u : ProxyListener} (current : s.current = some l)
    (selected : Selector.select s.routingTable l.port rand = some endpoint)
    (moved : ProxyListener.step l.listener (.accept o) = some u) :
    Inv config (acts ++ [.accept o rand])
      { s with
        current := some { l with listener := u }
        idBase := u.idBase
        accepted := s.accepted ++ [⟨l.port, l.listener.idBase, endpoint⟩] } := by
  obtain ⟨counted, stopped⟩ := accept_inv moved
  have number : l.listener.idBase = s.idBase := h.counter l current
  have same := ahead_current current u l.interrupted
  have atPort : ∀ port ∈ s.ahead, l.port ≤ port := h.first current
  refine { h with
    turn := (congrArg (_ ++ ·) same).trans h.turn
    counter := ?_
    ids := ?_
    configured := ?_
    order := ?_
    behind := ?_
    given := ?_ }
  · rintro _ ⟨⟩
    rfl
  · rw [List.map_append, h.ids, counted, List.range_succ, number, List.map_singleton]
  · intro c mem
    obtain earlier | new := List.mem_append.mp mem
    · exact h.configured c earlier
    · obtain ⟨rt, stored⟩ := h.stored current
      rw [h.table] at stored selected
      rw [List.mem_singleton.mp new]
      exact configured_of_stored stored (mem_of_select stored selected)
  · refine List.pairwise_append.mpr ⟨h.order, List.pairwise_singleton _ _, ?_⟩
    intro c earlier c' new
    rw [List.mem_singleton.mp new]
    exact h.behind c earlier l.port (by simp [ahead, current])
  · intro c mem port later
    have later' : port ∈ s.ahead := same ▸ later
    obtain earlier | new := List.mem_append.mp mem
    · exact h.behind c earlier port later'
    · rw [List.mem_singleton.mp new]
      exact atPort port later'
  · have before := h.given
    rw [countP_snoc]
    -- the loop may be about to end for a signal, and now for `loopbreak` too
    have either : (l.interrupted || (establish o).loopbreak).toNat ≤
        l.interrupted.toNat + (establish o).loopbreak.toNat := by
      cases l.interrupted <;> cases (establish o).loopbreak <;> simp
    simp only [leaving, current, running_of_step moved, Bool.or_false] at before
    simp only [leaving, stopped, GivesUp]
    omega

theorem Inv.callback (h : Inv config acts s) {l : Listening} {u : ProxyListener}
    (current : s.current = some l) (same : u.idBase = l.listener.idBase)
    (running : u.stopped = false) :
    Inv config (acts ++ [a])
      { s with current := some { l with listener := u }, idBase := u.idBase } := by
  have unmoved := ahead_current current u l.interrupted
  have given := h.given
  refine { h with
    turn := (congrArg (_ ++ ·) unmoved).trans h.turn
    counter := ?_
    ids := ?_
    behind := fun c mem port later => h.behind c mem port (unmoved ▸ later)
    given := ?_ }
  · rintro _ ⟨⟩
    rfl
  · rw [same, h.counter l current]
    exact h.ids
  · have told : l.interrupted.toNat ≤ (l.interrupted || l.listener.stopped).toNat := by
      cases l.interrupted <;> simp
    rw [countP_snoc]
    simp only [leaving, current] at given
    simp only [leaving, running, Bool.or_false]
    omega

theorem Inv.interrupt (h : Inv config acts s) {l : Listening} (current : s.current = some l) :
    Inv config (acts ++ [.interrupt])
      { s with current := some { l with interrupted := true } } := by
  have unmoved := ahead_current current l.listener true
  have given := h.given
  refine { h with
    turn := (congrArg (_ ++ ·) unmoved).trans h.turn
    counter := ?_
    behind := fun c mem port later => h.behind c mem port (unmoved ▸ later)
    given := ?_ }
  · rintro _ ⟨⟩
    exact h.counter l current
  · rw [countP_snoc]
    simp [leaving, GivesUp] at given ⊢
    omega

/-- The process dies. -/
theorem Inv.dies (h : Inv config acts s) {death : Death}
    (reason : ∀ port, death = .divided port →
      ∃ rt, s.routingTable.get? port = some rt ∧ toInt32 rt.length = 0) :
    Inv config (acts ++ [a]) { s with death := some death } := by
  refine { h with
    given := ?_
    death := fun port died => reason port (Option.some.inj died) }
  rw [countP_snoc]
  exact h.given.trans (Nat.le_add_right _ _)

theorem Inv.step (h : Inv config acts s) (taken : s.step a = some t) :
    Inv config (acts ++ [a]) t := by
  cases change_of_step taken with
  | listen idle next => exact h.listen idle next
  | skip idle next => exact h.skip idle next
  | accept current selected moved => exact h.accept current selected moved
  | divide current nothing =>
      obtain ⟨rt, stored⟩ := h.stored current
      refine h.dies fun port same => ?_
      cases same
      exact ⟨rt, stored, size_of_select_none stored nothing⟩
  | callback current same running => exact h.callback current same running
  | interrupt current => exact h.interrupt current
  | die => exact h.dies fun _ other => nomatch other
  | leave current ends => exact h.leave current ends

end Invariant

/-! ## Whole runs -/

/-- In every run of the proxy its connections are numbered in the order of the
accepts, and each of them leads to an endpoint that the last line for its port
names. The ports are those of the routing table in their order, those before the
one that is served are given up for good, and each needs a reason for that: a
port is only served after as many failures or signals as there are ports before
it. A division by zero needs a route without endpoints. -/
theorem served_in_turn {config : Option (List UInt8)} {acts : List Act} {s : Server}
    (ran : Run step Always (start config) acts s) :
    s.accepted.map Accepted.id = List.range s.accepted.length ∧
      (∀ c ∈ s.accepted, Configured config c.port c.endpoint) ∧
      s.accepted.Pairwise (fun c c' => c.port ≤ c'.port) ∧
      s.past.map Prod.fst ++ (s.current.map Listening.port).toList ++ s.ports =
        Selector.getIncomingPorts (Selector.readRoutingTable config) ∧
      (∀ c ∈ s.accepted, ∀ l, s.current = some l → c.port ≤ l.port) ∧
      s.past.length ≤ acts.countP GivesUp ∧
      ∀ port, s.death = some (.divided port) →
        ∃ rt, (Selector.readRoutingTable config).get? port = some rt ∧ toInt32 rt.length = 0 := by
  have inv : Inv config acts s :=
    ran.invariant (Inv config) (.start config) fun h _ taken => h.step taken
  have numbered : s.accepted.length = s.idBase := by
    have ids := congrArg List.length inv.ids
    rwa [List.length_map, List.length_range] at ids
  refine ⟨numbered ▸ inv.ids, inv.configured, inv.order, ?_, fun c mem l current => ?_,
    (Nat.le_add_right _ _).trans inv.given, fun port died => inv.table ▸ inv.death port died⟩
  · rw [List.append_assoc, ← inv.table]
    exact inv.turn
  · exact inv.behind c mem l.port (by simp [ahead, current])

/-- A client and SIGINT, without a configuration. -/
def oneClient : List Act :=
  [.listen true, .accept ⟨true, true, true, .inProgress⟩ 7, .interrupt, .leave]

theorem served_in_turn_default : ∃ s, oneClient.foldlM step (start none) = some s ∧
    s.accepted.length = 1 ∧ s.past.map Prod.fst = [9995] ∧
      ∀ c ∈ s.accepted, c.port = 9995 ∧ c.endpoint = (text "127.0.0.1", 9000) := by
  have outcome : (oneClient.foldlM step (start none)).map
      (fun s => (s.accepted.length, s.past.map Prod.fst)) = some (1, [9995]) := by
    decide +kernel
  obtain ⟨s, ran, same⟩ := Option.map_eq_some_iff.mp outcome
  obtain ⟨one, past⟩ := Prod.ext_iff.mp same
  obtain ⟨_, configured, _⟩ := served_in_turn (.of_foldlM ran)
  exact ⟨s, ran, one, past, configured⟩

end Server

end Proxy
