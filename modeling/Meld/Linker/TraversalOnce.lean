import Meld.Linker.TraversalRelink

/-!
# When the traversal visits every instruction once

The route goes to the code of a block once for each node whose entry in the table leads to it, so it
has every instruction exactly once when every block belongs to exactly one node (`Tree.once_iff`).
`printsOnce_iff` is this for the printing of bytes.
-/

namespace Meld.Linker.Traversal

open Lib Lib.Bytes Vm Vm.Bytecode

/-! ### Counting -/

/-- The list has each number of the range once. -/
def OnceOn (r : List ℕ) (k n : ℕ) : Prop := ∀ j, k ≤ j → j < k + n → r.count j = 1

variable {r r' : List ℕ} {k n m j : ℕ}

theorem onceOn_append (hr : ∀ j ∈ r, j < k + n) (hr' : ∀ j ∈ r', k + n ≤ j) :
    OnceOn (r ++ r') k (n + m) ↔ OnceOn r k n ∧ OnceOn r' (k + n) m := by
  have hleft : ∀ {j}, j < k + n → (r ++ r').count j = r.count j := fun hj => by
    rw [List.count_append, List.count_eq_zero.mpr fun hmem => absurd (hr' _ hmem) hj.not_ge,
      Nat.add_zero]
  have hright : ∀ {j}, k + n ≤ j → (r ++ r').count j = r'.count j := fun hj => by
    rw [List.count_append, List.count_eq_zero.mpr fun hmem => absurd (hr _ hmem) hj.not_gt,
      Nat.zero_add]
  constructor
  · intro h
    refine ⟨fun j hk hj => ?_, fun j hk hj => ?_⟩
    · rw [← hleft hj]
      exact h j hk (by omega)
    · rw [← hright hk]
      exact h j (by omega) (by omega)
  · rintro ⟨h, h'⟩ j hk hj
    rcases Nat.lt_or_ge j (k + n) with hlt | hge
    · rw [hleft hlt]
      exact h j hk hlt
    · rw [hright hge]
      exact h' j hge (by omega)

theorem onceOn_singleton : OnceOn [k] k 1 := fun j hk hj => by
  obtain rfl : j = k := by omega
  exact List.count_singleton_self

theorem onceOn_cons (hr : ∀ j ∈ r, k + 1 ≤ j) : OnceOn (k :: r) k (n + 1) ↔ OnceOn r (k + 1) n := by
  have happend := onceOn_append (r := [k]) (m := n)
    (fun j hj => by rw [List.mem_singleton.mp hj]; exact Nat.lt_succ_self k) hr
  rw [Nat.add_comm n 1]
  exact happend.trans (and_iff_right onceOn_singleton)

/-- An instruction, the code of its own and what follows. -/
theorem onceOn_code (hr : ∀ j ∈ r, k + 1 ≤ j ∧ j < k + 1 + n) (hr' : ∀ j ∈ r', k + 1 + n ≤ j) :
    OnceOn (k :: (r ++ r')) k (n + m + 1) ↔ OnceOn r (k + 1) n ∧ OnceOn r' (k + 1 + n) m := by
  rw [onceOn_cons, onceOn_append (fun j hj => (hr j hj).2) hr']
  intro j hj
  rcases List.mem_append.mp hj with hj | hj
  · exact (hr j hj).1
  · have := hr' j hj
    omega

/-! ### The blocks of a `SELECT_INSTR` -/

/-- The number of instructions before the block. -/
def start (groups : List (List Head)) (b : ℕ) : ℕ := (groups.take b).flatten.length

variable {groups : List (List Head)} {g : List Head} {b : ℕ}

theorem start_zero : start groups 0 = 0 := rfl

theorem start_cons : start (g :: groups) (b + 1) = g.length + start groups b := by
  rw [start, List.take_succ_cons, List.flatten_cons, List.length_append]
  rfl

/-- One block ends before the next begins. -/
theorem start_add_le (hb : groups[b]? = some g) {b' : ℕ} (hlt : b < b') :
    start groups b + g.length ≤ start groups b' := by
  induction groups generalizing b b' with
  | nil => cases hb
  | cons g₀ groups ih =>
    obtain ⟨b', rfl⟩ := Nat.exists_eq_add_of_le' (Nat.zero_lt_of_lt hlt)
    rw [start_cons]
    cases b with
    | zero =>
      cases hb
      rw [start_zero]
      omega
    | succ b =>
      have := ih hb (Nat.lt_of_succ_lt_succ hlt)
      rw [start_cons]
      omega

/-- Every instruction of the blocks is in one of them. -/
theorem exists_block (hj : j < groups.flatten.length) :
    ∃ (b : ℕ) (g : List Head), groups[b]? = some g ∧ start groups b ≤ j ∧
      j < start groups b + g.length := by
  induction groups generalizing j with
  | nil => cases hj
  | cons g groups ih =>
    rw [List.flatten_cons, List.length_append] at hj
    by_cases hlt : j < g.length
    · exact ⟨0, g, rfl, Nat.zero_le _, by rw [start_zero]; omega⟩
    · obtain ⟨b, g', hb, hle, hlt'⟩ := ih (by omega : j - g.length < groups.flatten.length)
      exact ⟨b + 1, g', hb, by rw [start_cons]; omega, by rw [start_cons]; omega⟩

theorem Blocks.length_pos : (blocks : Blocks) → {b : ℕ} → {g : List Head} →
    blocks.groups[b]? = some g → 0 < g.length
  | .nil, b, g, hg => nomatch hg
  | .cons body jump blocks, b, g, hg => by
    cases b with
    | zero =>
      cases hg
      simp
    | succ b => exact blocks.length_pos hg

/-- The route of a block stays in the block. -/
theorem Blocks.mem_routes_block : (blocks : Blocks) → {k b j : ℕ} → {r : List ℕ} → {g : List Head} →
    (blocks.routes k)[b]? = some r → blocks.groups[b]? = some g → j ∈ r →
    k + start blocks.groups b ≤ j ∧ j < k + start blocks.groups b + g.length
  | .nil, k, b, j, r, g, hr, hg, hj => by cases hr
  | .cons body jump blocks, k, b, j, r, g, hr, hg, hj => by
    cases b with
    | zero =>
      cases hr
      cases hg
      rw [Blocks.groups, start_zero, List.length_append, List.length_singleton]
      rcases List.mem_append.mp hj with hj | hj
      · have := body.mem_route hj
        omega
      · rw [List.mem_singleton.mp hj]
        omega
    | succ b =>
      have := blocks.mem_routes_block hr hg hj
      rw [Blocks.groups, start_cons, List.length_append, List.length_singleton]
      omega

/-- An instruction that only one block has is printed once for every node with the block. -/
theorem count_flatMap_blockRoute {routes : List (List ℕ)} (hr : routes[b]? = some r)
    (hother : ∀ (b' : ℕ) (r' : List ℕ), b' ≠ b → routes[b']? = some r' → j ∉ r')
    (table : List (Option ℕ)) :
    (table.flatMap (blockRoute routes)).count j = table.count (some b) * r.count j := by
  induction table with
  | nil => simp
  | cons o table ih =>
    have hcount : (blockRoute routes o).count j = if o = some b then r.count j else 0 := by
      split_ifs with ho
      · rw [ho, blockRoute, Option.bind_some, hr]
        rfl
      · refine List.count_eq_zero.mpr fun hmem => ?_
        cases o with
        | none => cases hmem
        | some b' =>
          rw [blockRoute, Option.bind_some] at hmem
          cases hr' : routes[b']? with
          | none =>
            rw [hr'] at hmem
            cases hmem
          | some r' =>
            rw [hr'] at hmem
            exact hother b' r' (fun heq => ho (congrArg some heq)) hr' hmem
    rw [List.flatMap_cons, List.count_append, hcount, ih, List.count_cons]
    by_cases ho : o = some b
    · rw [if_pos ho, if_pos (by simp [ho]), Nat.add_mul, Nat.one_mul, Nat.add_comm]
    · rw [if_neg ho, if_neg (by simp [ho]), Nat.zero_add, Nat.add_zero]

/-- The routes of the nodes have the instructions of the blocks once when every block is the code of
one node, and the route of each block has those of the block once. -/
theorem onceOn_table {blocks : Blocks} {table : List (Option ℕ)} :
    OnceOn (table.flatMap (blockRoute (blocks.routes k))) k blocks.groups.flatten.length ↔
      (∀ b < blocks.groups.length, table.count (some b) = 1) ∧
        ∀ (b : ℕ) (r : List ℕ) (g : List Head), (blocks.routes k)[b]? = some r →
          blocks.groups[b]? = some g → OnceOn r (k + start blocks.groups b) g.length := by
  have hcount : ∀ {b r g j}, (blocks.routes k)[b]? = some r → blocks.groups[b]? = some g →
      k + start blocks.groups b ≤ j → j < k + start blocks.groups b + g.length →
        (table.flatMap (blockRoute (blocks.routes k))).count j =
          table.count (some b) * r.count j := by
    intro b r g j hr hg hle hlt
    refine count_flatMap_blockRoute hr (fun b' r' hne hr' hmem => ?_) table
    have hlt' := (List.getElem?_eq_some_iff.mp hr').1
    rw [blocks.length_routes] at hlt'
    have hg' := List.getElem?_eq_getElem hlt'
    have hblock := blocks.mem_routes_block hr' hg' hmem
    rcases Nat.lt_or_gt_of_ne hne with hbefore | hbehind
    · have := start_add_le hg' hbefore
      omega
    · have := start_add_le hg hbehind
      omega
  have hblock : ∀ {b g}, blocks.groups[b]? = some g →
      start blocks.groups b + g.length ≤ blocks.groups.flatten.length := by
    intro b g hg
    have hlt := (List.getElem?_eq_some_iff.mp hg).1
    have hend := start_add_le hg hlt
    rwa [start, start, List.take_length] at hend
  constructor
  · intro h
    have hone : ∀ {b r g j}, (blocks.routes k)[b]? = some r → blocks.groups[b]? = some g →
        k + start blocks.groups b ≤ j → j < k + start blocks.groups b + g.length →
          table.count (some b) = 1 ∧ r.count j = 1 := by
      intro b r g j hr hg hle hlt
      have hend := hblock hg
      have hj := h j (by omega) (by omega)
      rw [hcount hr hg hle hlt] at hj
      exact ⟨Nat.eq_one_of_mul_eq_one_right hj, Nat.eq_one_of_mul_eq_one_left hj⟩
    refine ⟨fun b hb => ?_, fun b r g hr hg j hle hlt => (hone hr hg hle hlt).2⟩
    have hg := List.getElem?_eq_getElem hb
    have hr := List.getElem?_eq_getElem ((blocks.length_routes k).symm ▸ hb)
    have hpos := blocks.length_pos hg
    exact (hone hr hg le_rfl (by omega)).1
  · rintro ⟨htable, hroutes⟩ j hle hlt
    obtain ⟨b, g, hg, hstart, hend⟩ :=
      exists_block (by omega : j - k < blocks.groups.flatten.length)
    have hb := (List.getElem?_eq_some_iff.mp hg).1
    have hr := List.getElem?_eq_getElem ((blocks.length_routes k).symm ▸ hb)
    rw [hcount hr hg (by omega) (by omega), htable b hb,
      hroutes b _ g hr hg j (by omega) (by omega)]

mutual

/-- The route has every instruction once when every block is the code of one node. -/
theorem Tree.once_iff : (c : Tree) → (k : ℕ) →
    (OnceOn (c.route k) k c.heads.length ↔ c.Unshared)
  | .done, k => iff_of_true (fun j hk hj => absurd hj (by simp [Tree.heads]; omega)) trivial
  | .instr i rest, k => by
    rw [Tree.heads, Tree.route, Tree.Unshared, List.length_cons,
      onceOn_cons fun j hj => (rest.mem_route hj).1]
    exact rest.once_iff (k + 1)
  | .ifReg _ body rest, k | .iter _ _ _ _ body rest, k => by
    rw [Tree.heads, Tree.route, Tree.Unshared, List.length_cons, List.length_append,
      onceOn_code (fun j hj => body.mem_route hj) fun j hj => (rest.mem_route hj).1]
    exact and_congr (body.once_iff (k + 1)) (rest.once_iff _)
  | .resetLinear body rest, k => by
    have hend : ∀ j ∈ (k + 1 + body.heads.length) :: rest.route (k + 1 + body.heads.length + 1),
        k + 1 + body.heads.length ≤ j := by
      intro j hj
      rcases List.mem_cons.mp hj with rfl | hj
      · exact le_rfl
      · have := rest.mem_route hj
        omega
    rw [Tree.heads, Tree.route, Tree.Unshared, List.length_cons, List.length_append,
      List.length_cons, onceOn_code (fun j hj => body.mem_route hj) hend,
      onceOn_cons fun j hj => (rest.mem_route hj).1]
    exact and_congr (body.once_iff (k + 1)) (rest.once_iff _)
  | .select table blocks rest, k => by
    have hblocks : ∀ j ∈ table.flatMap (blockRoute (blocks.routes (k + 1))),
        k + 1 ≤ j ∧ j < k + 1 + blocks.groups.flatten.length := by
      intro j hj
      obtain ⟨b, -, hj⟩ := List.mem_flatMap.mp hj
      obtain ⟨b, r, hr, hj⟩ := mem_blockRoute hj
      exact blocks.mem_routes hr hj
    rw [Tree.heads, Tree.route, Tree.Unshared, List.length_cons, List.length_append,
      onceOn_code hblocks fun j hj => (rest.mem_route hj).1, onceOn_table, and_assoc]
    exact and_congr_right fun _ => and_congr (blocks.once_iff (k + 1)) (rest.once_iff _)

/-- The routes of the blocks have the instructions of their blocks once. -/
theorem Blocks.once_iff : (blocks : Blocks) → (k : ℕ) →
    ((∀ (b : ℕ) (r : List ℕ) (g : List Head), (blocks.routes k)[b]? = some r →
      blocks.groups[b]? = some g → OnceOn r (k + start blocks.groups b) g.length) ↔
        blocks.Unshared)
  | .nil, k => iff_of_true (fun b r g hr hg => nomatch hr) trivial
  | .cons body jump blocks, k => by
    have hfirst : OnceOn (body.route k ++ [k + body.heads.length]) k (body.heads.length + 1) ↔
        body.Unshared := by
      rw [onceOn_append (fun j hj => (body.mem_route hj).2)
        fun j hj => (List.mem_singleton.mp hj).ge, and_iff_left onceOn_singleton]
      exact body.once_iff k
    rw [Blocks.Unshared, ← hfirst, ← blocks.once_iff (k + body.heads.length + 1)]
    constructor
    · intro h
      refine ⟨?_, fun b r g hr hg => ?_⟩
      · have h0 := h 0 _ _ rfl rfl
        rwa [start_zero, Nat.add_zero, List.length_append, List.length_singleton] at h0
      · have hb := h (b + 1) r g hr hg
        rwa [Blocks.groups, start_cons, List.length_append, List.length_singleton,
          ← Nat.add_assoc, ← Nat.add_assoc] at hb
    · rintro ⟨h0, h⟩ b r g hr hg
      cases b with
      | zero =>
        cases hr
        cases hg
        rwa [start_zero, Nat.add_zero, List.length_append, List.length_singleton]
      | succ b =>
        have hb := h b r g hr hg
        rwa [Blocks.groups, start_cons, List.length_append, List.length_singleton,
          ← Nat.add_assoc, ← Nat.add_assoc]

end

/-! ### Printing code -/

variable {links : Links} {c : Tree}

theorem addresses_eq (a : ℕ) (L : List Head) :
    addresses a L = (List.range L.length).map fun i => a + address L i := by
  induction L generalizing a with
  | nil => rfl
  | cons h L ih =>
    rw [addresses, ih, List.length_cons, List.range_succ_eq_map, List.map_cons, List.map_map]
    refine congrArg₂ _ rfl (List.map_congr_left fun i _ => ?_)
    rw [Function.comp_apply, address, address, List.take_succ_cons, size_cons, Nat.add_assoc]

theorem address_injOn {L : List Head} {i : ℕ} (hi : i < L.length) (hj : j < L.length)
    (h : address L i = address L j) : i = j := by
  rcases Nat.lt_trichotomy i j with hlt | heq | hgt
  · exact absurd h (address_lt hlt hj.le).ne
  · exact heq
  · exact absurd h (address_lt hgt hi.le).ne'

/-- Printing visits the addresses of the instructions once each when the route has their numbers
once. -/
theorem perm_addresses_iff {L : List Head} (hks : ∀ j ∈ r, j < L.length) :
    (r.map (address L)).Perm (addresses 0 L) ↔ OnceOn r 0 L.length := by
  have haddresses : addresses 0 L = (List.range L.length).map (address L) := by
    rw [addresses_eq]
    exact List.map_congr_left fun i _ => Nat.zero_add _
  rw [haddresses]
  constructor
  · intro hperm j _ hj
    rw [Nat.zero_add] at hj
    have hnodup : ((List.range L.length).map (address L)).Nodup :=
      List.Nodup.map_on (fun i hi j hj =>
        address_injOn (List.mem_range.mp hi) (List.mem_range.mp hj)) List.nodup_range
    have hr : r.Nodup := List.Nodup.of_map _ (hperm.nodup_iff.mpr hnodup)
    obtain ⟨i, hi, heq⟩ := List.mem_map.mp (hperm.mem_iff.mpr
      (List.mem_map_of_mem (List.mem_range.mpr hj)))
    obtain rfl := address_injOn (hks i hi) hj heq
    exact List.count_eq_one_of_mem hr hi
  · intro honce
    refine List.Perm.map _ (List.perm_iff_count.mpr fun j => ?_)
    by_cases hj : j < L.length
    · rw [honce j (Nat.zero_le _) (by omega),
        List.count_eq_one_of_mem List.nodup_range (List.mem_range.mpr hj)]
    · rw [List.count_eq_zero.mpr fun hmem => hj (hks j hmem),
        List.count_eq_zero.mpr fun hmem => hj (List.mem_range.mp hmem)]

theorem WellFormed.lays (h : WellFormed links c) : Lays c.heads := ⟨h.fits, h.size⟩

/-- The relinked code. -/
theorem relinkAll_eq {L : List Head} (hr : r.Nodup) (hall : ∀ j < L.length, j ∈ r) :
    (relinkAll links L r).flatMap Head.bytes = L.flatMap fun h => (relink links h).bytes := by
  have hmap : relinkAll links L r = L.map (relink links) := by
    refine List.ext_getElem? fun i => ?_
    rw [getElem?_relinkAll hr, List.getElem?_map]
    split_ifs with hi
    · rfl
    · rw [List.getElem?_eq_none (Nat.le_of_not_lt fun hlt => hi (hall i hlt))]
      rfl
  rw [hmap, List.flatMap_map]

/-- A run that visits every address once is one over code without shared blocks. -/
theorem visited_perm_iff {t : Tape}
    (hrun : (c.route 0).foldlM (step links c.heads) ⟨c.bytes, []⟩ = .ok t) :
    t.visited.Perm (addresses 0 c.heads) ↔ c.Unshared := by
  have hvisited := visited_of_foldlM hrun
  rw [List.nil_append] at hvisited
  rw [hvisited, perm_addresses_iff c.route_lt, c.once_iff]

/-- What printing that visits every instruction once says about the code. -/
theorem PrintsOnce.unshared (hp : PrintsOnce links c) (h : WellFormed links c) :
    c.Unshared ∧ ∀ i ∈ c.heads, i.Sized := by
  obtain ⟨n, hprints⟩ := hp
  obtain ⟨t, hrun, hvisited, -⟩ := hprints (n + c.heads.length + 1) (by omega)
  rw [instrsPrint_eq h.lays h.tabled (by omega)] at hrun
  obtain ⟨t', hrun, heq⟩ := bind_eq_ok.mp hrun
  cases heq
  have hunshared := (visited_perm_iff hrun).mp hvisited
  refine ⟨hunshared, fun i hi => ?_⟩
  obtain ⟨j, hj⟩ := List.getElem?_of_mem hi
  have hlt := (List.getElem?_eq_some_iff.mp hj).1
  have hone := (c.once_iff 0).mpr hunshared j (Nat.zero_le _) (by omega)
  exact sized_of_foldlM h.lays (shaped_bytes c.heads) c.route_lt hrun
    (List.count_pos_iff.mp (by omega)) hj

/-- Code without shared blocks is relinked, each instruction once. -/
theorem WellFormed.printsOnce (h : WellFormed links c) (hunshared : c.Unshared)
    (hsized : ∀ i ∈ c.heads, i.Sized) : PrintsOnce links c := by
  have honce := (c.once_iff 0).mpr hunshared
  have hnodup : (c.route 0).Nodup := List.nodup_iff_count_le_one.mpr fun j => by
    by_cases hj : j ∈ c.route 0
    · exact (honce j (Nat.zero_le _) (by have := c.route_lt j hj; omega)).le
    · rw [List.count_eq_zero.mpr hj]
      exact Nat.zero_le 1
  have hall : ∀ j < c.heads.length, j ∈ c.route 0 := fun j hj =>
    List.count_pos_iff.mp (by rw [honce j (Nat.zero_le _) (by omega)]; exact Nat.one_pos)
  obtain ⟨t, hrun, hrelinked⟩ := foldlM_step_fresh (t := ⟨c.bytes, []⟩) h.lays
    (fun i hi => ⟨h.knows i hi, h.typed i hi, hsized i hi⟩) hnodup c.route_lt
    (fun _ => rfl) (fun _ _ => rfl) (shaped_bytes c.heads) rfl
  refine ⟨c.heads.length + 1, fun fuel hfuel => ⟨t, ?_, (visited_perm_iff hrun).mpr hunshared, ?_⟩⟩
  · rw [instrsPrint_eq h.lays h.tabled (by omega), hrun, ok_bind]
  · rw [hrelinked, relinkAll_eq hnodup hall]

/-! ### Code in which a block may be shared -/

/-- A program with two predicates, which the linker calls 1 and 2. -/
def sampleLinks : Links := ⟨[(1, []), (2, [])], [], 0⟩

/-- A `SELECT_INSTR` over two nodes with one block, which the first node has. -/
def sampleTree (second : Option ℕ) : Tree :=
  .select [some 0, second] (.cons (.instr (.alloc 0 3) .done) 5 .nil) (.instr .returnInstr .done)

theorem sampleTree_wellFormed {second : Option ℕ} (hsecond : second ∈ [none, some 0]) :
    WellFormed sampleLinks (sampleTree second) := by
  have hheads : (sampleTree second).heads =
      [.select 25 [1, entry [[.instr (.alloc 0 3), .returnSelect 5]] second],
        .instr (.alloc 0 3), .returnSelect 5, .instr .returnInstr] := rfl
  refine ⟨?_, ⟨fun b hb => ?_, ⟨trivial, trivial⟩, trivial⟩, ?_, ?_, ?_⟩
  · rw [Tree.bytes, hheads]
    simp [Head.bytes, Instr.bytes]
  · simp only [List.mem_cons, List.not_mem_nil, or_false] at hsecond hb
    rcases hb with hb | hb
    · cases hb
      exact Nat.one_pos
    · rcases hsecond with rfl | rfl
      · cases hb
      · cases hb
        exact Nat.one_pos
  · rw [hheads]
    simp [Head.Fits]
  · rw [hheads]
    simp [headRefs, Instr.refs, Instr.ids, Instr.vals, Links.Knows, predicateGet, sampleLinks]
  · rw [hheads]
    simp [Head.Typed]

/-- Printing visits every instruction once and relinks it exactly when every block of a
`SELECT_INSTR` is the code of exactly one node and `advance` takes the sizes of all operands. -/
theorem printsOnce_iff (h : WellFormed links c) :
    PrintsOnce links c ↔ c.Unshared ∧ ∀ i ∈ c.heads, i.Sized :=
  ⟨fun hp => hp.unshared h, fun hcond => h.printsOnce hcond.1 hcond.2⟩

theorem printsOnce_sampleTree :
    WellFormed sampleLinks (sampleTree none) ∧ PrintsOnce sampleLinks (sampleTree none) := by
  have h : WellFormed sampleLinks (sampleTree none) := sampleTree_wellFormed List.mem_cons_self
  refine ⟨h, (printsOnce_iff h).mpr ⟨⟨fun b hb => ?_, ⟨trivial, trivial⟩, trivial⟩, ?_⟩⟩
  · obtain rfl : b = 0 := Nat.lt_one_iff.mp hb
    decide
  · rintro i hi o ho
    revert o ho
    revert i hi
    decide

/-- Two nodes with one block: the block is printed twice. -/
theorem not_printsOnce_shared :
    ∃ links c, WellFormed links c ∧ ¬PrintsOnce links c := by
  have h : WellFormed sampleLinks (sampleTree (some 0)) := sampleTree_wellFormed (by decide)
  refine ⟨_, _, h, fun hp => ?_⟩
  obtain ⟨⟨htable, -⟩, -⟩ := hp.unshared h
  exact absurd (htable 0 Nat.one_pos) (by decide)

end Meld.Linker.Traversal
