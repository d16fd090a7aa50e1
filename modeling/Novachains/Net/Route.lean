import Mathlib.Order.Nat
import Novachains.Basic
import Novachains.Lib.SortedMap
import Novachains.Lib.Transition

/-!
# The route table

`_netRoute` has the host and the service names of every node.  The key of a node is its route ID
with the service cleared.  Each function clears it, but `del`.  `operator[]` makes a node that is
not there, so that whether there was one is guessed from what it has.

A name is the text of a C string that is shorter than its buffer.  A call has no result when it
reads outside `_service`.  The latch is held for the whole of each call.
-/

namespace Novachains.Net

open Lib Function

def serviceTypeMax : ℕ := 6

structure RouteID where
  groupID : UInt32
  nodeID : UInt16
  serviceID : UInt16

namespace RouteID
variable (id : RouteID)

/-- `value` when `serviceID` is set to 0. -/
def key : ℕ := id.groupID.toNat + id.nodeID.toNat * 2 ^ 32

def value : ℕ := id.key + id.serviceID.toNat * 2 ^ 48

/-- The place of the service in `_service`. -/
def service? : Option (Fin serviceTypeMax) :=
  if h : id.serviceID.toNat < serviceTypeMax then some ⟨_, h⟩ else none

theorem key_lt : id.key < 2 ^ 48 := by
  have hgroup := id.groupID.toNat_lt
  have hnode := id.nodeID.toNat_lt
  rw [key]
  omega

end RouteID

abbrev Name := List Char

structure Names where
  host : Name := []
  service : Fin serviceTypeMax → Name := fun _ => []

structure RouteNode where
  names : Names := {}
  id : ℕ := 0

abbrev RouteTable := List (ℕ × RouteNode)

/-- The calls; `rekey` is the `update` of two IDs. -/
inductive RouteCall
  | update (id : RouteID) (host service : Name)
  | updateNode (id : RouteID) (node : Names)
  | rekey (oldID newID : RouteID)
  | del (id : RouteID)
  | clear
  | route (id : RouteID)
  | routeNode (id : RouteID)
  | routeName (host service : Name) (type : Fin serviceTypeMax)

/-- What a call returns.  `ok` says that it is `SDB_OK`, and nothing is `SDB_NET_ROUTE_NOT_FOUND`. -/
inductive Reply
  | updated (ok newAdd : Bool)
  | rekeyed (ok : Bool)
  | deleted (hasDel : Bool)
  | cleared
  | names (found : Option (Name × Name))
  | node (found : Option Names)
  | id (found : Option ℕ)

namespace RouteTable

/-- The functions of `_netRoute`. -/
def exec (t : RouteTable) : RouteCall → Option (Reply × RouteTable)
  | .update id host service => id.service?.map fun i =>
    let node := (t.lookup id.key).getD {}
    (.updated (host ≠ node.names.host ∨ service ≠ node.names.service i)
        (node.id = 0 ∧ node.names.host = []),
      insertKey id.key ⟨⟨host, update node.names.service i service⟩, id.key⟩ t)
  | .updateNode id node =>
    let update := (t.lookup id.key).getD {}
    some (.updated (node.host ≠ update.names.host ∨ ∃ i, node.service i ≠ update.names.service i)
        -- the host of the node that is given, not of the one that is there
        (update.id = 0 ∧ node.host = []),
      insertKey id.key ⟨node, id.key⟩ t)
  | .rekey oldID newID =>
    match t.lookup oldID.key with
    | none => some (.rekeyed false, t)
    | some node => some (.rekeyed true,
      if oldID.key ≠ newID.key then
        eraseKey oldID.key (insertKey newID.key { node with id := newID.key } t)
      else t)
  | .del id =>
    match t.lookup id.value with
    | none => some (.deleted false, t)
    | some _ => some (.deleted true, eraseKey id.value t)
  | .clear => some (.cleared, [])
  | .route id =>
    match t.lookup id.key with
    | none => some (.names none, t)
    | some node => id.service?.map fun i =>
      (.names (if node.names.service i = [] then none
        else some (node.names.host, node.names.service i)), t)
  | .routeNode id => some (.node ((t.lookup id.key).map RouteNode.names), t)
  | .routeName host service type =>
    some (.id ((t.find? fun e => e.2.names.host = host ∧ e.2.names.service type = service).map
      Prod.fst), t)

end RouteTable

abbrev RouteMap := ℕ → Option Names

namespace RouteMap

def after (m : RouteMap) : RouteCall → RouteMap
  | .update id host service =>
    match id.service? with
    | none => m
    | some i => update m id.key
      (some ⟨host, update ((m id.key).getD {}).service i service⟩)
  | .updateNode id node => update m id.key (some node)
  | .rekey oldID newID =>
    match m oldID.key with
    | none => m
    | some node => update (update m oldID.key none) newID.key (some node)
  | .del id => update m id.key none
  | .clear => fun _ => none
  | _ => m

def Serves (m : RouteMap) (host service : Name) (type : Fin serviceTypeMax) (k : ℕ) : Prop :=
  ∃ node, m k = some node ∧ node.host = host ∧ node.service type = service

open Classical in
/-- What a call on the map returns; a search by names finds the least ID. -/
noncomputable def answer (m : RouteMap) (c : RouteCall) : Reply :=
  match c with
  | .update id _ _ | .updateNode id _ => .updated (m.after c ≠ m) (m id.key = none)
  | .rekey oldID _ => .rekeyed (m oldID.key).isSome
  | .del id => .deleted (m id.key).isSome
  | .clear => .cleared
  | .route id => .names ((m id.key).bind fun node => id.service?.bind fun i =>
    if node.service i = [] then none else some (node.host, node.service i))
  | .routeNode id => .node (m id.key)
  | .routeName host service type =>
    .id (if h : ∃ k, m.Serves host service type k then some (Nat.find h) else none)

/-- Where the table answers as the map: a given service has a place, the names tell whether a node
is new, and `del` is given a service only without a node. -/
def Safe (m : RouteMap) : RouteCall → Prop
  | .update id host service => id.service? ≠ none ∧ (m id.key = none → host ≠ [] ∨ service ≠ []) ∧
    ∀ node, m id.key = some node → id.key = 0 → node.host ≠ []
  | .updateNode id node => (m id.key = none → node.host = [] ∧ ∃ i, node.service i ≠ []) ∧
    (m id.key ≠ none → id.key = 0 → node.host ≠ [])
  | .del id => id.serviceID.toNat = 0 ∨ m id.key = none
  | .route id => id.service? ≠ none ∨ m id.key = none
  | _ => True

end RouteMap

/-! ## The table and the map -/

structure Agrees (t : RouteTable) (m : RouteMap) : Prop where
  sorted : KeysSorted t
  lookup_eq : ∀ k, t.lookup k = (m k).map fun names => ⟨names, k⟩
  key_lt : ∀ k names, m k = some names → k < 2 ^ 48

def Right (t : RouteTable) (m : RouteMap) (c : RouteCall) : Prop :=
  ∃ t', t.exec c = some (m.answer c, t') ∧ Agrees t' (m.after c)

section
variable {t : RouteTable} {m : RouteMap} {k : ℕ}

theorem agrees_nil : Agrees [] fun _ => none := ⟨.nil, fun _ => rfl, nofun⟩

theorem Agrees.insert (h : Agrees t m) (hk : k < 2 ^ 48) (names : Names) :
    Agrees (insertKey k ⟨names, k⟩ t) (update m k (some names)) where
  sorted := h.sorted.insertKey
  lookup_eq k' := by
    rw [lookup_insertKey, update_apply]
    split_ifs with heq
    · rw [heq, Option.map_some]
    · exact h.lookup_eq k'
  key_lt k' names' := by
    rw [update_apply]
    split_ifs with heq
    · exact fun _ => heq ▸ hk
    · exact h.key_lt k' names'

theorem Agrees.erase (h : Agrees t m) : Agrees (eraseKey k t) (update m k none) where
  sorted := h.sorted.eraseKey
  lookup_eq k' := by
    rw [lookup_eraseKey, update_apply]
    split_ifs with heq
    · rfl
    · exact h.lookup_eq k'
  key_lt k' names' := by
    rw [update_apply]
    split_ifs with heq
    · exact nofun
    · exact h.key_lt k' names'

theorem right_iff {c : RouteCall} {r : Reply} {t' : RouteTable} (hexec : t.exec c = some (r, t'))
    (hagrees : Agrees t' (m.after c)) : Right t m c ↔ r = m.answer c := by
  rw [Right, hexec]
  constructor
  · rintro ⟨t'', heq, -⟩
    exact (Prod.mk.inj (Option.some.inj heq)).1
  · rintro rfl
    exact ⟨t', rfl, hagrees⟩

theorem right_update_iff (h : Agrees t m) (id : RouteID) (host service : Name) :
    Right t m (.update id host service) ↔ m.Safe (.update id host service) := by
  rw [RouteMap.Safe]
  cases hi : id.service? with
  | none => simp [Right, RouteTable.exec, hi]
  | some i =>
    have hafter : m.after (.update id host service) = update m id.key
        (some ⟨host, update ((m id.key).getD {}).service i service⟩) := by
      simp only [RouteMap.after, hi]
    cases hm : m id.key with
    | none =>
      rw [hm] at hafter
      rw [right_iff (by rw [RouteTable.exec, hi, h.lookup_eq, hm]; rfl)
        (by rw [hafter]; exact h.insert id.key_lt _), RouteMap.answer]
      simp [hafter, update_eq_self_iff, hm]
    | some node =>
      have hsame : m.after (.update id host service) = m ↔
          host = node.host ∧ service = node.service i := by
        obtain ⟨host', service'⟩ := node
        rw [hafter, update_eq_self_iff, hm]
        simp [update_eq_self_iff]
      rw [hm] at hafter
      rw [right_iff (by rw [RouteTable.exec, hi, h.lookup_eq, hm]; rfl)
        (by rw [hafter]; exact h.insert id.key_lt _), RouteMap.answer]
      simp [hsame, hm, ← Bool.not_and]

theorem right_updateNode_iff (h : Agrees t m) (id : RouteID) (node : Names) :
    Right t m (.updateNode id node) ↔ m.Safe (.updateNode id node) := by
  have hsame : m.after (.updateNode id node) = m ↔ m id.key = some node :=
    update_eq_self_iff.trans eq_comm
  rw [RouteMap.Safe, right_iff rfl (h.insert id.key_lt node), RouteMap.answer, h.lookup_eq]
  cases hm : m id.key with
  | none =>
    simp [hsame, hm]
    tauto
  | some names =>
    have hext : names = node ↔ node.host = names.host ∧ ∀ i, node.service i = names.service i := by
      obtain ⟨host, service⟩ := names
      obtain ⟨host', service'⟩ := node
      simp [funext_iff, eq_comm]
    simp [hsame, hm, hext]

theorem right_rekey (h : Agrees t m) (oldID newID : RouteID) : Right t m (.rekey oldID newID) := by
  have hlookup := h.lookup_eq oldID.key
  cases hm : m oldID.key with
  | none =>
    rw [hm] at hlookup
    refine ⟨t, ?_, ?_⟩
    · simp [RouteTable.exec, RouteMap.answer, hlookup, hm]
    · simpa [RouteMap.after, hm] using h
  | some names =>
    rw [hm] at hlookup
    have hafter : m.after (.rekey oldID newID) =
        update (update m oldID.key none) newID.key (some names) := by
      simp only [RouteMap.after, hm]
    by_cases hne : oldID.key = newID.key
    · rw [hne] at hlookup hm
      refine ⟨t, ?_, ?_⟩
      · simp [RouteTable.exec, RouteMap.answer, hne, hlookup, hm]
      · rw [hafter, hne, update_idem, ← hm, update_eq_self]
        exact h
    · refine ⟨eraseKey oldID.key (insertKey newID.key ⟨names, newID.key⟩ t), ?_, ?_⟩
      · simp [RouteTable.exec, RouteMap.answer, hlookup, hm, hne]
      · rw [hafter, update_comm hne]
        exact (h.insert newID.key_lt names).erase

theorem right_del_iff (h : Agrees t m) (id : RouteID) : Right t m (.del id) ↔ m.Safe (.del id) := by
  rw [RouteMap.Safe]
  by_cases hzero : id.serviceID.toNat = 0
  · have hvalue : id.value = id.key := by rw [RouteID.value, hzero, zero_mul, add_zero]
    refine iff_of_true ?_ (.inl hzero)
    have hlookup := h.lookup_eq id.key
    cases hm : m id.key with
    | none =>
      refine ⟨t, by simp [RouteTable.exec, RouteMap.answer, hvalue, hlookup, hm], ?_⟩
      rwa [RouteMap.after, ← hm, update_eq_self]
    | some names =>
      refine ⟨eraseKey id.key t, ?_, h.erase⟩
      simp [RouteTable.exec, RouteMap.answer, hvalue, hlookup, hm]
  · have hnone : t.lookup id.value = none := by
      rw [h.lookup_eq, Option.map_eq_none_iff]
      cases hm : m id.value with
      | none => rfl
      | some names =>
        have hlt := h.key_lt _ _ hm
        rw [RouteID.value] at hlt
        omega
    have hexec : t.exec (.del id) = some (.deleted false, t) := by simp only [RouteTable.exec, hnone]
    cases hm : m id.key with
    | none =>
      refine iff_of_true ⟨t, by rw [hexec, RouteMap.answer, hm]; rfl, ?_⟩ (.inr rfl)
      rwa [RouteMap.after, ← hm, update_eq_self]
    | some names => simp [Right, hexec, RouteMap.answer, hm, hzero]

theorem right_route_iff (h : Agrees t m) (id : RouteID) :
    Right t m (.route id) ↔ m.Safe (.route id) := by
  have hafter : m.after (.route id) = m := rfl
  rw [RouteMap.Safe, Right, RouteTable.exec, RouteMap.answer, hafter, h.lookup_eq]
  cases m id.key with
  | none => simp [h]
  | some names => cases id.service? <;> simp [h]

open Classical in
theorem right_routeName (h : Agrees t m) (host service : Name) (type : Fin serviceTypeMax) :
    Right t m (.routeName host service type) := by
  refine ⟨t, ?_, h⟩
  have hserves : ∀ k, (∃ node, t.lookup k = some node ∧
      decide (node.names.host = host ∧ node.names.service type = service) = true) ↔
        m.Serves host service type k := by
    intro k
    simp [RouteMap.Serves, h.lookup_eq]
  have hfind := fun k => h.sorted.find?_eq_some (k := k)
    (p := fun node => decide (node.names.host = host ∧ node.names.service type = service))
  rw [RouteTable.exec, RouteMap.answer]
  congr 3
  split
  · rename_i hex
    rw [hfind]
    refine ⟨(hserves _).mpr (Nat.find_spec hex), fun k node hk hp => Nat.find_min' hex ?_⟩
    exact (hserves k).mp ⟨node, hk, hp⟩
  · rename_i hex
    rw [Option.eq_none_iff_forall_ne_some]
    intro k hk
    exact hex ⟨k, (hserves k).mp ((hfind k).mp hk).1⟩

theorem right_iff_safe (h : Agrees t m) (c : RouteCall) : Right t m c ↔ m.Safe c := by
  cases c with
  | update id host service => exact right_update_iff h id host service
  | updateNode id node => exact right_updateNode_iff h id node
  | rekey oldID newID => exact iff_of_true (right_rekey h oldID newID) trivial
  | del id => exact right_del_iff h id
  | clear => exact iff_of_true ⟨[], rfl, agrees_nil⟩ trivial
  | route id => exact right_route_iff h id
  | routeNode id =>
    refine iff_of_true ⟨t, ?_, h⟩ trivial
    rw [RouteTable.exec, h.lookup_eq, RouteMap.answer, Option.map_map]
    simp [comp_def]
  | routeName host service type => exact iff_of_true (right_routeName h host service type) trivial

/-- The runs of calls on a table, beside those on the map, in which all calls meet a condition. -/
def routeSystem (Safe : RouteMap → RouteCall → Prop) : System (RouteTable × RouteMap) where
  init s := s = ([], fun _ => none)
  step s s' := ∃ c r, Safe s.2 c ∧ s.1.exec c = some (r, s'.1) ∧ s'.2 = s.2.after c

theorem reachable_after {Safe : RouteMap → RouteCall → Prop} {c : RouteCall}
    (hs : (routeSystem Safe).Reachable (t, m)) (hsafe : Safe m c) (hright : Right t m c) :
    ∃ t', (routeSystem Safe).Reachable (t', m.after c) ∧ Agrees t' (m.after c) := by
  obtain ⟨t', hexec, hagrees⟩ := hright
  exact ⟨t', hs.step ⟨c, _, hsafe, hexec, rfl⟩, hagrees⟩

/-- **The route table is a map from nodes** in every run of safe calls, and the next call answers as
the map exactly when it is safe. -/
theorem route_table_iff (hs : (routeSystem RouteMap.Safe).Reachable (t, m)) (c : RouteCall) :
    Right t m c ↔ m.Safe c := by
  have hinv : (routeSystem RouteMap.Safe).Invariant fun s => Agrees s.1 s.2 := by
    refine ⟨?_, ?_⟩
    · rintro _ rfl
      exact agrees_nil
    rintro s ⟨t', m'⟩ h ⟨c, r, hsafe, hexec, rfl⟩
    obtain ⟨t'', hexec', hagrees⟩ := (right_iff_safe h c).mpr hsafe
    obtain rfl := (Prod.mk.inj (Option.some.inj (hexec'.symm.trans hexec))).2
    exact hagrees
  exact right_iff_safe (hinv.reachable hs) c

end

/-- A node is entered in an empty table. -/
def enter : RouteCall := .update ⟨1, 1, 0⟩ ['h'] ['s']

theorem enter_reachable : ∃ t, (routeSystem RouteMap.Safe).Reachable
    (t, RouteMap.after (fun _ => none) enter) ∧ Agrees t (RouteMap.after (fun _ => none) enter) := by
  have hsafe : RouteMap.Safe (fun _ => none) enter :=
    ⟨nofun, fun _ => .inl nofun, by rintro _ ⟨⟩⟩
  exact reachable_after (.init rfl) hsafe ((right_iff_safe agrees_nil _).mpr hsafe)

/-- The node gets a second service. -/
theorem route_table_second : ∃ t, (routeSystem RouteMap.Safe).Reachable
      (t, RouteMap.after (fun _ => none) enter) ∧
    Right t (RouteMap.after (fun _ => none) enter) (.update ⟨1, 1, 1⟩ ['h'] ['t']) := by
  obtain ⟨t, hreach, -⟩ := enter_reachable
  refine ⟨t, hreach, (route_table_iff hreach _).mpr ⟨nofun, fun _ => .inl nofun, ?_⟩⟩
  simp [RouteID.key]

/-- A node is not deleted by its ID when the service is set. -/
theorem route_table_wrong : ∃ s, (routeSystem RouteMap.Safe).Reachable s ∧
    ¬ Right s.1 s.2 (.del ⟨1, 1, 1⟩) := by
  obtain ⟨t, hreach, hagrees⟩ := enter_reachable
  refine ⟨_, hreach, ?_⟩
  rw [right_iff_safe hagrees, RouteMap.Safe, enter]
  simp [RouteMap.after, RouteID.service?, RouteID.key, serviceTypeMax]

end Novachains.Net
