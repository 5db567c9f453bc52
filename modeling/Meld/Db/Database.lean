import Meld.Lib.Exec

/-!
# The nodes of the database

The database maps the ids of nodes to nodes. An id comes from `create_node`, which takes the one
after the largest, or from the caller of `create_node_id`, which has to be larger than the others.

Both take an id that no node has, as long as the largest id does not wrap around and the check of
`create_node_id` is made. The check is left out when the largest id is zero, which is so at first
but also when there is a node with that id (`sound_iff`).
-/

namespace Meld.Db

open Lib

/-- `node`. Two nodes with the same ids are told apart by the order in which they were made. -/
structure Node where
  id : UInt32
  translation : UInt32
  number : ℕ
  deriving DecidableEq, Repr

/-- `database`. -/
structure Database where
  nodes : AList fun _ : UInt32 => Node
  translation : AList fun _ : UInt32 => UInt32
  maxNodeId : UInt32
  maxTranslatedId : UInt32
  /-- how many nodes `create_fn` has made -/
  created : ℕ

namespace Database

/-- A node is made by `create_fn` and entered in the maps. -/
def enter (d : Database) (id translation : UInt32) : Node × Database :=
  let ret := ⟨id, translation, d.created⟩
  (ret,
    { d with
      nodes := d.nodes.insert id ret
      translation := d.translation.insert id translation
      created := d.created + 1 })

/-- One turn of the loop of the constructor. -/
def loadNode (d : Database) : UInt32 × UInt32 → Database
  | (fakeId, realId) =>
    { (d.enter fakeId realId).2 with
      maxNodeId := if d.maxNodeId < fakeId then fakeId else d.maxNodeId
      maxTranslatedId := if d.maxTranslatedId < realId then realId else d.maxTranslatedId }

/-- The constructor, from the pairs of ids that it reads. -/
def load (ids : List (UInt32 × UInt32)) : Database := ids.foldl loadNode ⟨∅, ∅, 0, 0, 0⟩

/-- `create_node_id`. -/
def createNodeId (d : Database) (id : UInt32) : Exec (Node × Database) := do
  if 0 < d.maxNodeId then
    assert (d.maxNodeId < id)
    assert (d.maxTranslatedId < id)
  return { d with maxNodeId := id, maxTranslatedId := id }.enter id id

/-- `create_node`. -/
def createNode (d : Database) : Exec (Node × Database) :=
  let d :=
    if d.nodes.keys = [] then { d with maxNodeId := 0, maxTranslatedId := 0 }
    else
      { d with maxNodeId := d.maxNodeId + 1, maxTranslatedId := d.maxTranslatedId + 1 }
  pure (d.enter d.maxNodeId d.maxTranslatedId)

/-- `find_node`, which calls `abort` when no node has the id. -/
def findNode (d : Database) (id : UInt32) : Exec Node :=
  match d.nodes.lookup id with
  | some n => pure n
  | none => .error .assertion

/-- The calls that create nodes. -/
inductive Call
  | createNode
  | createNodeId (id : UInt32)
  deriving DecidableEq, Repr

/-- A call. -/
def call (d : Database) : Call → Exec (Node × Database)
  | .createNode => d.createNode
  | .createNodeId id => d.createNodeId id

/-- A sequence of calls, with the nodes that they create. -/
def run (d : Database) (calls : List Call) : Exec (List Node × Database) :=
  calls.foldlM (fun r c => do
    let (n, d) ← r.2.call c
    return (r.1 ++ [n], d)) ([], d)

/-! ### What should hold -/

/-- After calls that created nodes: these have ids that no other node has, the entries of the map
are theirs and those that were there, and no id is larger than the recorded one. -/
structure Sound (d : Database) (ns : List Node) (d' : Database) : Prop where
  fresh : ∀ n ∈ ns, n.id ∉ d.nodes
  distinct : (ns.map Node.id).Nodup
  entries : ∀ id n,
    d'.nodes.lookup id = some n ↔ n ∈ ns ∧ n.id = id ∨ d.nodes.lookup id = some n
  bound : ∀ id ∈ d'.nodes, id ≤ d'.maxNodeId

/-- The largest id does not wrap around, and no second node gets the id zero. -/
def Safe (d : Database) : Call → Prop
  | .createNode => d.nodes.keys = [] ∨ d.maxNodeId.toNat + 1 < 2 ^ 32
  | .createNodeId id => d.nodes.keys = [] ∨ d.maxNodeId ≠ 0 ∨ id ≠ 0

/-! ### One call -/

section

variable {d d' : Database} {c : Call} {n : Node}

/-- What a call does. -/
theorem call_eq_ok (h : d.call c = .ok (n, d')) :
    d'.nodes = d.nodes.insert n.id n ∧ d'.maxNodeId = n.id ∧
      match c with
      | .createNode => n.id = if d.nodes.keys = [] then 0 else d.maxNodeId + 1
      | .createNodeId id => n.id = id ∧ (d.maxNodeId = 0 ∨ d.maxNodeId < id) := by
  cases c with
  | createNode =>
    cases h
    split_ifs <;> exact ⟨rfl, rfl, rfl⟩
  | createNodeId id =>
    rw [call, createNodeId] at h
    split_ifs at h with hmax
    · simp only [bind_eq_ok, assert_eq_ok] at h
      obtain ⟨-, hlt, -, -, h⟩ := h
      cases h
      exact ⟨rfl, rfl, rfl, .inr hlt⟩
    · cases h
      refine ⟨rfl, rfl, rfl, .inl (UInt32.toNat_inj.mp ?_)⟩
      rw [UInt32.lt_iff_toNat_lt] at hmax
      simpa using hmax

/-- The nodes are found under their ids. -/
def Keyed (d : Database) : Prop := ∀ id n, d.nodes.lookup id = some n → n.id = id

theorem keyed_insert {nodes : AList fun _ : UInt32 => Node} (hd : d.Keyed)
    (hnodes : nodes = d.nodes.insert n.id n) : ∀ id m, nodes.lookup id = some m → m.id = id := by
  intro id m hm
  rw [hnodes] at hm
  by_cases hid : id = n.id
  · subst hid
    rw [AList.lookup_insert, Option.some.injEq] at hm
    rw [hm]
  · rw [AList.lookup_insert_ne hid] at hm
    exact hd id m hm

theorem Keyed.call (hd : d.Keyed) (h : d.call c = .ok (n, d')) : d'.Keyed :=
  keyed_insert hd (call_eq_ok h).1

theorem keyed_load (ids : List (UInt32 × UInt32)) : (load ids).Keyed := by
  have hfold : ∀ (ids : List (UInt32 × UInt32)) (d : Database),
      d.Keyed → (ids.foldl loadNode d).Keyed := by
    intro ids
    induction ids with
    | nil => exact fun d hd => hd
    | cons p ids ih =>
      exact fun d hd => ih _ (keyed_insert (n := ⟨p.1, p.2, d.created⟩) hd rfl)
  exact hfold ids _ fun id n h => by cases h

/-- A node is found when there is one with the id. -/
theorem findNode_of_mem (hd : d.Keyed) {id : UInt32} (h : id ∈ d.nodes) :
    ∃ node, d.findNode id = .ok node ∧ node.id = id := by
  obtain ⟨node, hnode⟩ := Option.isSome_iff_exists.mp (AList.lookup_isSome.mpr h)
  refine ⟨node, ?_, hd id node hnode⟩
  rw [findNode, hnode]
  rfl

/-- The largest id is that of a node. -/
def MaxEntered (d : Database) : Prop := d.nodes.keys ≠ [] → d.maxNodeId ∈ d.nodes

theorem maxEntered_of_call (h : d.call c = .ok (n, d')) : d'.MaxEntered := fun _ => by
  obtain ⟨hnodes, hmax, -⟩ := call_eq_ok h
  rw [hnodes, hmax]
  exact (AList.mem_insert d.nodes).mpr (.inl rfl)

/-- The id of the new node is larger than the others when the call is safe. -/
theorem fresh_iff (hmax : d.MaxEntered) (hbound : ∀ id ∈ d.nodes, id ≤ d.maxNodeId)
    (h : d.call c = .ok (n, d')) :
    (n.id ∉ d.nodes ∧ ∀ id ∈ d'.nodes, id ≤ d'.maxNodeId) ↔ d.Safe c := by
  obtain ⟨hnodes, hmax', hid⟩ := call_eq_ok h
  have hall : (∀ id ∈ d'.nodes, id ≤ d'.maxNodeId) ↔ ∀ id ∈ d.nodes, id ≤ n.id := by
    rw [hnodes, hmax']
    simp only [AList.mem_insert, forall_eq_or_imp, UInt32.le_refl, true_and]
  rw [hall]
  by_cases hempty : d.nodes.keys = []
  · have hnone : ∀ id, id ∉ d.nodes := fun id hid => by
      rw [AList.mem_keys, hempty] at hid
      cases hid
    refine iff_of_true ⟨hnone _, fun id hid => absurd hid (hnone id)⟩ ?_
    cases c <;> exact .inl hempty
  · have hmem := hmax hempty
    have hlt : (n.id ∉ d.nodes ∧ ∀ id ∈ d.nodes, id ≤ n.id) ↔ d.maxNodeId < n.id := by
      constructor
      · rintro ⟨hfresh, hle⟩
        exact UInt32.lt_of_le_of_ne (hle _ hmem) fun heq => hfresh (heq ▸ hmem)
      · intro hlt
        refine ⟨fun hmem' => ?_, fun id hid => ?_⟩
        · exact absurd (hbound _ hmem') (UInt32.not_le.mpr hlt)
        · exact UInt32.le_trans (hbound id hid) (UInt32.le_of_lt hlt)
    rw [hlt]
    cases c with
    | createNode =>
      rw [if_neg hempty] at hid
      have hmax := d.maxNodeId.toNat_lt
      rw [Safe, or_iff_right hempty, hid, UInt32.lt_iff_toNat_lt, UInt32.toNat_add]
      change d.maxNodeId.toNat < (d.maxNodeId.toNat + 1) % 2 ^ 32 ↔ _
      omega
    | createNodeId id =>
      obtain ⟨rfl, hid⟩ := hid
      simp only [Safe, or_iff_right hempty, UInt32.lt_iff_toNat_lt, ne_eq, ← UInt32.toNat_inj]
        at hid ⊢
      change d.maxNodeId.toNat = 0 ∨ _ at hid
      change _ ↔ ¬d.maxNodeId.toNat = 0 ∨ ¬n.id.toNat = 0
      omega

/-- A call that throws is safe. -/
theorem safe_of_error {e : Fault} (h : d.call c = .error e) : d.Safe c := by
  cases c with
  | createNode => cases h
  | createNodeId id =>
    refine .inr (.inl fun hmax => ?_)
    rw [call, createNodeId, hmax] at h
    cases h

/-! ### Runs -/

/-- The loop of the constructor keeps the largest id. -/
theorem loadNode_max (p : UInt32 × UInt32)
    (h : d.MaxEntered ∧ (d.nodes.keys = [] → d.maxNodeId = 0) ∧
      ∀ id ∈ d.nodes, id ≤ d.maxNodeId) :
    (d.loadNode p).MaxEntered ∧ ((d.loadNode p).nodes.keys = [] → (d.loadNode p).maxNodeId = 0) ∧
      ∀ id ∈ (d.loadNode p).nodes, id ≤ (d.loadNode p).maxNodeId := by
  obtain ⟨hmax, hzero, hbound⟩ := h
  have hmem : ∀ id, id ∈ (d.loadNode p).nodes ↔ id = p.1 ∨ id ∈ d.nodes := fun id =>
    AList.mem_insert d.nodes
  have hle : ∀ {m : UInt32}, (d.loadNode p).maxNodeId = m → p.1 ≤ m ∧ d.maxNodeId ≤ m := by
    rintro _ rfl
    change p.1 ≤ (if _ then _ else _) ∧ _ ≤ (if _ then _ else _)
    split_ifs with hlt
    · exact ⟨UInt32.le_refl _, UInt32.le_of_lt hlt⟩
    · exact ⟨UInt32.not_lt.mp hlt, UInt32.le_refl _⟩
  refine ⟨fun _ => ?_, fun hempty => ?_, fun id hid => ?_⟩
  · rw [hmem]
    change (if _ then _ else _) = _ ∨ (if _ then _ else _) ∈ _
    split_ifs with hlt
    · exact .inl rfl
    · by_cases hempty : d.nodes.keys = []
      · have hzero := hzero hempty
        rw [hzero, UInt32.lt_iff_toNat_lt, UInt32.toNat_zero, Nat.pos_iff_ne_zero, not_not] at hlt
        exact .inl (UInt32.toNat_inj.mp (by rw [hzero, hlt, UInt32.toNat_zero]))
      · exact .inr (hmax hempty)
  · have hp := (hmem p.1).mpr (.inl rfl)
    rw [AList.mem_keys, hempty] at hp
    cases hp
  · rcases (hmem id).mp hid with rfl | hid
    · exact (hle rfl).1
    · exact UInt32.le_trans (hbound id hid) (hle rfl).2

theorem load_max (ids : List (UInt32 × UInt32)) :
    (load ids).MaxEntered ∧ ∀ id ∈ (load ids).nodes, id ≤ (load ids).maxNodeId := by
  have hfold : ∀ (ids : List (UInt32 × UInt32)) (d : Database),
      (d.MaxEntered ∧ (d.nodes.keys = [] → d.maxNodeId = 0) ∧ ∀ id ∈ d.nodes, id ≤ d.maxNodeId) →
      (ids.foldl loadNode d).MaxEntered ∧
        ∀ id ∈ (ids.foldl loadNode d).nodes, id ≤ (ids.foldl loadNode d).maxNodeId := by
    intro ids
    induction ids with
    | nil => exact fun d h => ⟨h.1, h.2.2⟩
    | cons p ids ih => exact fun d h => ih _ (loadNode_max p h)
  exact hfold ids _ ⟨fun h => absurd rfl h, fun _ => rfl,
    fun id hid => absurd hid (AList.notMem_empty id)⟩

theorem run_append {calls : List Call} {ns : List Node} :
    d.run (calls ++ [c]) = .ok (ns, d') ↔
      ∃ ns₀ d₀ n, d.run calls = .ok (ns₀, d₀) ∧ d₀.call c = .ok (n, d') ∧ ns = ns₀ ++ [n] := by
  rw [run, List.foldlM_append, bind_eq_ok]
  constructor
  · rintro ⟨⟨ns₀, d₀⟩, hrun, h⟩
    rw [List.foldlM_cons, bind_eq_ok] at h
    obtain ⟨r, hr, h⟩ := h
    obtain ⟨⟨n, d₁⟩, hcall, hr⟩ := bind_eq_ok.mp hr
    cases hr
    cases h
    exact ⟨ns₀, d₀, n, hrun, hcall, rfl⟩
  · rintro ⟨ns₀, d₀, n, hrun, hcall, rfl⟩
    refine ⟨(ns₀, d₀), hrun, ?_⟩
    rw [List.foldlM_cons, hcall]
    rfl

theorem maxEntered_of_run {calls : List Call} {ns : List Node} (hd : d.MaxEntered)
    (h : d.run calls = .ok (ns, d')) : d'.MaxEntered := by
  rcases List.eq_nil_or_concat calls with rfl | ⟨calls, c, rfl⟩
  · cases h
    exact hd
  · obtain ⟨ns₀, d₀, n, -, hcall, -⟩ := run_append.mp (List.concat_eq_append .. ▸ h)
    exact maxEntered_of_call hcall

/-- One more call. -/
theorem sound_append_iff {d₀ : Database} {ns : List Node} (hs : Sound d₀ ns d)
    (hmax : d.MaxEntered) (h : d.call c = .ok (n, d')) :
    Sound d₀ (ns ++ [n]) d' ↔ d.Safe c := by
  rw [← fresh_iff hmax hs.bound h]
  obtain ⟨hnodes, -, -⟩ := call_eq_ok h
  constructor
  · intro hs'
    refine ⟨fun hmem => ?_, hs'.bound⟩
    obtain ⟨m, hm⟩ := Option.isSome_iff_exists.mp (AList.lookup_isSome.mpr hmem)
    rcases (hs.entries n.id m).mp hm with ⟨hmem, hid⟩ | hm
    · have hdistinct := hs'.distinct
      rw [List.map_append, List.nodup_append] at hdistinct
      exact hdistinct.2.2 m.id (List.mem_map_of_mem hmem) n.id List.mem_cons_self hid
    · have hfresh := hs'.fresh n (List.mem_append_right ns List.mem_cons_self)
      rw [← AList.lookup_eq_none, hm] at hfresh
      cases hfresh
  · rintro ⟨hfresh, hbound⟩
    rw [← AList.lookup_eq_none] at hfresh
    -- an entry of an older node would be one for the new id
    have hold : ∀ m, d.nodes.lookup n.id ≠ some m := fun m hm => by
      rw [hfresh] at hm
      cases hm
    refine ⟨fun m hm => ?_, ?_, fun id m => ?_, hbound⟩
    · rcases List.mem_append.mp hm with hm | hm
      · exact hs.fresh m hm
      · rcases List.mem_singleton.mp hm with rfl
        intro hmem
        obtain ⟨m', hm'⟩ := Option.isSome_iff_exists.mp (AList.lookup_isSome.mpr hmem)
        exact hold m' ((hs.entries m.id m').mpr (.inr hm'))
    · rw [List.map_append, List.nodup_append]
      refine ⟨hs.distinct, List.nodup_singleton _, fun id hid id' hid' heq => ?_⟩
      obtain ⟨m, hm, rfl⟩ := List.mem_map.mp hid
      rcases List.mem_singleton.mp hid' with rfl
      exact hold m ((hs.entries n.id m).mpr (.inl ⟨hm, heq⟩))
    · rw [hnodes]
      by_cases hid : id = n.id
      · subst hid
        rw [AList.lookup_insert]
        constructor
        · intro hm
          cases hm
          exact .inl ⟨List.mem_append_right ns List.mem_cons_self, rfl⟩
        · rintro (⟨hm, hid⟩ | hm)
          · rcases List.mem_append.mp hm with hm | hm
            · exact absurd ((hs.entries n.id m).mpr (.inl ⟨hm, hid⟩)) (hold m)
            · rw [List.mem_singleton.mp hm]
          · exact absurd ((hs.entries n.id m).mpr (.inr hm)) (hold m)
      · rw [AList.lookup_insert_ne hid, hs.entries]
        refine or_congr_left (and_congr_left fun hm => ?_)
        rw [List.mem_append, List.mem_singleton, or_iff_left]
        rintro rfl
        exact hid hm.symm

/-- In every state of a run, the ids are unique and the map is complete if and only if the calls of
the run are safe. -/
theorem sound_iff (ids : List (UInt32 × UInt32)) (calls : List Call) :
    (∀ cs ns d, cs <+: calls → (load ids).run cs = .ok (ns, d) → Sound (load ids) ns d) ↔
      ∀ cs c ns d, cs ++ [c] <+: calls → (load ids).run cs = .ok (ns, d) → d.Safe c := by
  obtain ⟨hmax, hbound⟩ := load_max ids
  constructor
  · intro hsound cs c ns d hcs hrun
    have hs := hsound cs ns d ((List.prefix_append cs [c]).trans hcs) hrun
    cases hcall : d.call c with
    | error e => exact safe_of_error hcall
    | ok r =>
      have hs' := hsound _ _ _ hcs (run_append.mpr ⟨ns, d, r.1, hrun, hcall, rfl⟩)
      exact (sound_append_iff hs (maxEntered_of_run hmax hrun) hcall).mp hs'
  · intro hsafe cs
    induction cs using List.reverseRecOn with
    | nil =>
      intro ns d _ hrun
      cases hrun
      exact ⟨List.forall_mem_nil _, List.nodup_nil, by simp, hbound⟩
    | append_singleton cs c ih =>
      intro ns d hcs hrun
      obtain ⟨ns₀, d₀, n, hrun₀, hcall, rfl⟩ := run_append.mp hrun
      have hs := ih ns₀ d₀ ((List.prefix_append cs [c]).trans hcs) hrun₀
      exact (sound_append_iff hs (maxEntered_of_run hmax hrun₀) hcall).mpr
        (hsafe cs c ns₀ d₀ hcs hrun₀)

/-- After `create_node` has made a node with the id zero, `create_node_id` makes another. -/
theorem not_sound :
    ∃ ids calls cs ns d, cs <+: calls ∧ (load ids).run cs = .ok (ns, d) ∧
      ¬Sound (load ids) ns d := by
  refine ⟨[], [.createNode, .createNodeId 0], _, [⟨0, 0, 0⟩, ⟨0, 0, 1⟩], _, List.prefix_rfl, rfl,
    fun h => ?_⟩
  have hdistinct := h.distinct
  simp at hdistinct

end

end Database

end Meld.Db
