import Meld.Db.TupleMatch

/-!
# What matching finds

The search of `match_predicate` walks a path as long as the fields stored on it satisfy the match
fields on the stack; `Leads` says that they do to the end. From a node the search comes back to
its continuation frames with exactly the leaves below the node whose paths are led to
(`explores_node`); from the root, where the stack is that of the match object, these are the
leaves of the tuples that the match accepts.
-/

namespace Meld.Db

open Meld.Lib Meld.Vm

/-! ### Paths that satisfy a match -/

/-- Whether the search goes on at a node that stores `d`. -/
def takes : MatchField → TupleField → Bool
  | .any _, _ => true
  | .exact x, d => d.sameAs (.item x)

namespace TupleTrie

/-- The stack below a node that stores `d`. -/
def stackBelow (f : MatchField) (rest : List MatchField) (d : TupleField) : List MatchField :=
  match f with
  | .any τ => stackAfter τ rest d
  | .exact _ => rest

/-- The fields `w` satisfy the match fields of the stack, which they use up. -/
def Leads : List MatchField → List TupleField → Prop
  | stack, [] => stack = []
  | [], _ :: _ => False
  | f :: rest, d :: w => takes f d = true ∧ Leads (stackBelow f rest d) w

variable {f : MatchField} {rest stack : List MatchField} {d : TupleField} {v : Value}
  {vs : List Value} {ρ : List FieldType}

/-- The types on the stack go with the levels. -/
theorem stackBelow_type (hd : f.type.Fits d) (h : f.type :: rest.map MatchField.type = ρ) :
    (stackBelow f rest d).map MatchField.type = descend ρ d := by
  subst h
  cases f with
  | exact x => cases d <;> rfl
  | any τ =>
    cases τ with
    | item ι => cases d <;> rfl
    | string => cases d <;> rfl
    | list ι =>
      cases d with
      | item x => exact hd.elim
      | ptr p =>
        rcases hd with rfl | rfl <;> rfl

/-- Tuples that satisfy a stack of match fields. -/
abbrev Accepts (stack : List MatchField) (vs : List Value) : Prop :=
  List.Forall₂ (fun f v => f.accepts v = true) stack vs

/-- The first level of a value, and what the value leaves for the following levels. -/
theorem takes_store (hty : f.type = v.type) :
    takes f v.store = true ∧ Accepts (stackBelow f rest v.store) (v.pushed ++ vs) ↔
      Accepts (f :: rest) (v :: vs) := by
  rw [Accepts, Accepts, List.forall₂_cons]
  cases f with
  | any τ =>
    obtain rfl : τ = v.type := hty
    cases v with
    | item x => rfl
    | string p => rfl
    | list ι l =>
      cases l with
      | nil => rfl
      | cons x l =>
        have hne : intField (.ptr 1) ≠ 0 := by decide
        simp [takes, stackBelow, stackAfter, Value.type, Value.store, Value.pushed, hne,
          MatchField.accepts]
  | exact y =>
    cases v with
    | item x => rfl
    | list ι l => simp [MatchField.type, Value.type] at hty
    | string p => simp [MatchField.type, Value.type] at hty

/-- The levels of a tuple satisfy the stack when the tuple satisfies the match. -/
theorem leads_levels (hty : stack.map MatchField.type = vs.map Value.type)
    (hvs : ∀ v ∈ vs, v.Ok) : Leads stack (levels vs) ↔ Accepts stack vs := by
  induction hn : (levels vs).length generalizing stack vs with
  | zero =>
    cases vs with
    | nil =>
      obtain rfl := List.map_eq_nil_iff.mp hty
      simp [Leads]
    | cons v vs => simp [levels_cons] at hn
  | succ n ih =>
    cases vs with
    | nil => simp at hn
    | cons v vs =>
      cases stack with
      | nil => simp at hty
      | cons f rest =>
        rw [List.map_cons, List.map_cons, List.cons.injEq] at hty
        have hv := hvs v (by simp)
        have hbelow : (stackBelow f rest v.store).map MatchField.type =
            (v.pushed ++ vs).map Value.type := by
          rw [stackBelow_type (hty.1 ▸ Value.fits_store) rfl, hty.1, hty.2, descend_store hv,
            List.map_append]
        rw [levels_cons] at hn ⊢
        rw [Leads, ih hbelow (fun x hx => (List.mem_append.mp hx).elim (Value.pushed_ok hv x)
          fun hx => hvs x (by simp [hx])) (by simpa using hn), takes_store hty.1]

/-! ### The search below a node -/

section

variable {garbage : Option ℕ} {t : TupleTrie} {types : List FieldType} {word : Words}
  {ls ks : List ℕ} {p c b l : ℕ} {u : List TupleField}

/-- The leaf `l` is below `b`, on a path that satisfies the stack. -/
def Under (t : TupleTrie) (word : Words) (b : ℕ) (stack : List MatchField) (l : ℕ) : Prop :=
  ∃ w x, Down t.nodes word b w x ∧ t.nodes.child x = .leaf l ∧ Leads stack w

/-- From `start` the search comes back to its continuation frames with the leaves `S`. -/
def Explores (garbage : Option ℕ) (t : TupleTrie) (start : List Frame → List ℕ → Visit)
    (S : ℕ → Prop) : Prop :=
  ∃ r : List ℕ, r.Nodup ∧ (∀ l, l ∈ r ↔ S l) ∧
    ∀ cont out, Reaches (visitStep garbage t) (start cont out) (.tryAgain cont (out ++ r))

/-- What follows `match_succeeded` at `b`. -/
def Enters (garbage : Option ℕ) (t : TupleTrie) (word : Words) (b : ℕ)
    (stack : List MatchField) : Prop :=
  ∃ start, (∀ cont out, matchSucceeded t b stack cont out = .ok (start cont out)) ∧
    Explores garbage t start (Under t word b stack)

theorem Explores.nothing {S : ℕ → Prop} {start : List Frame → List ℕ → Visit}
    (hS : ∀ l, ¬S l)
    (h : ∀ cont out, Reaches (visitStep garbage t) (start cont out) (.tryAgain cont out)) :
    Explores garbage t start S :=
  ⟨[], List.nodup_nil, fun l => by simpa using hS l, fun cont out => by simpa using h cont out⟩

/-- A node with children has a leaf below it where one of the children has. -/
theorem under_iff (hleaf : (t.nodes.child p).isLeaf = false) :
    Under t word p (f :: rest) l ↔ ∃ c, Kid t.nodes word p c ∧ takes f (t.nodes.data c) = true ∧
      Under t word c (stackBelow f rest (t.nodes.data c)) l := by
  constructor
  · rintro ⟨w, x, hd, hx, hw⟩
    cases hd with
    | refl => simp [hx, Child.isLeaf] at hleaf
    | step hk hd => exact ⟨_, hk, hw.1, _, x, hd, hx, hw.2⟩
  · rintro ⟨c, hk, htakes, w, x, hd, hx, hw⟩
    exact ⟨_, x, .step hk hd, hx, htakes, hw⟩

/-- No leaf is below two children of a node. -/
theorem not_under_sibling (h : Valid types t word ls) {s s' : List MatchField} {c' : ℕ}
    (hc : Kid t.nodes word p c) (hc' : Kid t.nodes word p c') (hne : c ≠ c')
    (hl : Under t word c s l) : ¬Under t word c' s' l := by
  rintro ⟨w', x', hd', hx', -⟩
  obtain ⟨w, x, hd, hx, -⟩ := hl
  have hnode : ∀ {c w x}, Kid t.nodes word p c → Down t.nodes word c w x →
      t.nodes.child x = .leaf l → t.leaves.node l = x := by
    intro c w x hk hd hx
    obtain ⟨v, hv⟩ := Option.isSome_iff_exists.mp hk.1
    exact (h.leafNodes.mem x l (Option.isSome_of_eq_some (h.shape.word_of_down hd hv)) hx).2
  obtain rfl : x = x' := (hnode hc hd hx).symm.trans (hnode hc' hd' hx')
  have hunique : Relator.RightUnique fun c p => t.nodes.parent c = some p :=
    fun _ _ _ h₁ h₂ => Option.some.inj (h₁.symm.trans h₂)
  rcases Relation.ReflTransGen.total_of_right_unique hunique hd.above hd'.above with habove | habove
  · exact h.shape.not_above_sibling hc' hc hne habove
  · exact h.shape.not_above_sibling hc hc' hne.symm habove

theorem enters_leaf (hb : t.nodes.arena.live b = true) (hl : t.nodes.child b = .leaf l) :
    Enters garbage t word b [] := by
  refine ⟨fun cont out => .tryAgain cont (out ++ [l]), fun cont out => ?_, [l],
    List.nodup_singleton l, fun l' => ?_, fun cont out => .refl⟩
  · simp [matchSucceeded, Arena.check_of_live hb, hl]
  · rw [List.mem_singleton]
    constructor
    · rintro rfl
      exact ⟨[], b, .refl b, hl, rfl⟩
    · rintro ⟨w, x, hd, hx, hw⟩
      cases w with
      | cons d w => exact hw.elim
      | nil =>
        cases hd
        rw [hl, Child.leaf.injEq] at hx
        exact hx.symm

theorem enters_node (hb : t.nodes.arena.live b = true)
    (hleaf : (t.nodes.child b).isLeaf = false)
    (h : Explores garbage t (.begin b (t.nodes.child b) stack true) (Under t word b stack)) :
    Enters garbage t word b stack := by
  refine ⟨.begin b (t.nodes.child b) stack true, fun cont out => ?_, h⟩
  rw [matchSucceeded, Arena.check_of_live hb, ok_bind]
  cases hc : t.nodes.child b with
  | leaf l => simp [hc, Child.isLeaf] at hleaf
  | null => rfl
  | node a => rfl
  | hash g => rfl

variable {τ : FieldType} {node : Child} {alt : Option ℕ} {down : Bool} {cont : List Frame}
  {out : List ℕ} {next : Visit}

/-- A round at a level where any field will do. -/
theorem visitStep_any (hr : t.numberOfReferences ≠ 0) (hp : t.nodes.arena.live p = true)
    (hnode : node ≠ .null) (hsel : selectAny garbage t p node down = .ok (b, alt))
    (hs : matchSucceeded t b (stackAfter τ rest (t.nodes.data b))
      (addAlt alt (.any τ :: rest) cont) out = .ok next) :
    visitStep garbage t (.begin p node (.any τ :: rest) down cont out) = .ok (.inl next) := by
  rw [visitStep, assert_pos hr, ok_bind, assert_pos hnode, ok_bind, Arena.check_of_live hp]
  simp only [ok_bind, hsel, hs, pure_eq_ok]

/-- A round at a level with an exact field, which a child has. -/
theorem visitStep_exact {x : Item} (hr : t.numberOfReferences ≠ 0)
    (hp : t.nodes.arena.live p = true) (hnode : node ≠ .null)
    (hsel : selectExact t p node down x = .ok (some b))
    (hs : matchSucceeded t b rest cont out = .ok next) :
    visitStep garbage t (.begin p node (.exact x :: rest) down cont out) = .ok (.inl next) := by
  rw [visitStep, assert_pos hr, ok_bind, assert_pos hnode, ok_bind, Arena.check_of_live hp]
  simp only [ok_bind, hsel, hs, pure_eq_ok]

/-- A round at a level with an exact field, which no child has. -/
theorem visitStep_missed {x : Item} (hr : t.numberOfReferences ≠ 0)
    (hp : t.nodes.arena.live p = true) (hnode : node ≠ .null)
    (hsel : selectExact t p node down x = .ok none) :
    visitStep garbage t (.begin p node (.exact x :: rest) down cont out) =
      .ok (.inl (.tryAgain cont out)) := by
  rw [visitStep, assert_pos hr, ok_bind, assert_pos hnode, ok_bind, Arena.check_of_live hp]
  simp only [ok_bind, hsel, pure_eq_ok]

/-- The child with an exact field. -/
theorem selectExact_spec (x : Item) (hrep : NodeRep t.nodes t.hashes word p)
    (hp : t.nodes.arena.live p = true)
    (hlive : ∀ c, Kid t.nodes word p c → t.nodes.arena.live c = true)
    (hleaf : (t.nodes.child p).isLeaf = false) (hnull : t.nodes.child p ≠ .null) :
    ∃ r, selectExact t p (t.nodes.child p) true x = .ok r ∧
      Finds t.nodes word p (.item x) r := by
  obtain ⟨start, r, n, hstart, hr, hfind⟩ := Trie.searchNode_spec (.item x) hrep hp hlive hleaf hnull
  refine ⟨r, ?_, hfind⟩
  cases hrep with
  | null hc => exact absurd hc hnull
  | leaf l hc => simp [hc, Child.isLeaf] at hleaf
  | plain b ks hc hh =>
    obtain rfl : some b = start := by
      simpa [Trie.searchStart, hh, Trie.nodeChild, Arena.check_of_live hp, hc] using hstart
    simp [selectExact, hh, hc, hr]
  | table g ks chain hc hh _ _ hlh =>
    obtain rfl : t.getField g (.item x) = start := by
      simpa [Trie.searchStart, hh, Trie.getHash, Arena.check_of_live hp, hc,
        Arena.check_of_live hlh] using hstart
    simp [selectExact, hh, hc, hr, assert, Arena.check_of_live hlh]

/-- At a level where any field will do: a child, and the alternatives to it. -/
theorem explores_cons (h : Valid types t word ls) (hks : Kids t.nodes word p ks)
    {xs ys : List ℕ} {a : ℕ} (hsplit : ks = xs ++ a :: ys)
    (begin : List Frame → List ℕ → Visit)
    (ha : Enters garbage t word a (stackAfter τ rest (t.nodes.data a)))
    (hys : Explores garbage t
      (fun cont out => .tryAgain (addAlt ys.head? (.any τ :: rest) cont) out)
      fun l => ∃ c ∈ ys, Under t word c (stackAfter τ rest (t.nodes.data c)) l)
    (hbegin : ∀ cont out next, matchSucceeded t a (stackAfter τ rest (t.nodes.data a))
      (addAlt ys.head? (.any τ :: rest) cont) out = .ok next →
      Reaches (visitStep garbage t) (begin cont out) next) :
    Explores garbage t begin
      fun l => ∃ c ∈ a :: ys, Under t word c (stackAfter τ rest (t.nodes.data c)) l := by
  have hka := (hks.mem a).mp (by simp [hsplit])
  obtain ⟨start, hstart, r, hnd, hmem, hreach⟩ := ha
  obtain ⟨r', hnd', hmem', hreach'⟩ := hys
  refine ⟨r ++ r', ?_, fun l => ?_, fun cont out => ?_⟩
  · refine hnd.append hnd' (List.disjoint_left.mpr fun l hl hl' => ?_)
    obtain ⟨c, hc, hu⟩ := (hmem' l).mp hl'
    have hkc := (hks.mem c).mp (by simp [hsplit, hc])
    have hne : a ≠ c := by
      rintro rfl
      have hnodup := hks.nodup
      rw [hsplit, List.nodup_append] at hnodup
      exact (List.nodup_cons.mp hnodup.2.1).1 hc
    exact not_under_sibling h hka hkc hne ((hmem l).mp hl) hu
  · rw [List.mem_append, hmem, hmem']
    simp
  · refine (hbegin cont out _ (hstart _ out)).trans ?_
    rw [← List.append_assoc]
    exact (hreach _ out).trans (hreach' cont (out ++ r))

/-- The alternatives at such a level, after the first child. -/
theorem explores_alternatives (h : Valid types t word ls) (hr : t.numberOfReferences ≠ 0)
    (hp : (word p).isSome) (hks : Kids t.nodes word p ks) (hv : Visits garbage t p ks)
    (hkid : ∀ c, Kid t.nodes word p c →
      Enters garbage t word c (stackAfter τ rest (t.nodes.data c))) (xs ys : List ℕ)
    (hxs : xs ≠ []) (hsplit : ks = xs ++ ys) :
    Explores garbage t
      (fun cont out => .tryAgain (addAlt ys.head? (.any τ :: rest) cont) out)
      fun l => ∃ c ∈ ys, Under t word c (stackAfter τ rest (t.nodes.data c)) l := by
  induction ys generalizing xs with
  | nil => exact .nothing (by simp) fun cont out => .refl
  | cons a ys ih =>
    have hka := (hks.mem a).mp (by simp [hsplit])
    refine explores_cons h hks hsplit _ (hkid a hka) (ih (xs ++ [a]) (by simp) (by simp [hsplit]))
      fun cont out next hnext => ?_
    have hresume : visitStep garbage t (.tryAgain (addAlt (some a) (.any τ :: rest) cont) out) =
        .ok (.inl (.begin p (.node a) (.any τ :: rest) false cont out)) := by
      simp [addAlt, visitStep, Arena.check_of_live (h.shape.live a hka.1), hka.2]
    exact .of_step hresume (.of_step (visitStep_any hr (h.shape.live p hp) (by simp)
      (hv.next xs a ys hxs hsplit) hnext) .refl)

/-- From a node with children the search comes back with the leaves below it whose paths satisfy
the stack. -/
theorem explores_node (garbage : Option ℕ) (h : Valid types t word ls) (hr : t.numberOfReferences ≠ 0)
    (hu : word p = some u)
    (hleaf : (t.nodes.child p).isLeaf = false) (hnull : t.nodes.child p ≠ .null)
    (hty : stack.map MatchField.type = restTypes types u) :
    Explores garbage t (.begin p (t.nodes.child p) stack true) (Under t word p stack) := by
  -- the induction is on the addresses above the node, which its children have
  induction hn : t.nodes.arena.next - p using Nat.strong_induction_on generalizing p u stack with
  | _ n ih =>
    have hs := h.shape
    have hp := Option.isSome_of_eq_some hu
    have hlp := hs.live p hp
    have hlive : ∀ c, Kid t.nodes word p c → t.nodes.arena.live c = true :=
      fun c hk => hs.live c hk.1
    obtain ⟨ks, hks, hv⟩ := exists_visits garbage (hs.rep p hp id) hlive hlp hleaf hnull
    obtain ⟨a, ys, hsplit, hsel⟩ := hv.first
    -- a node with children has a field left to match
    cases stack with
    | nil =>
      obtain ⟨τ, ρ, hτ, -⟩ := hs.typed p u a hu ((hks.mem a).mp (by simp [hsplit]))
      simp [hτ] at hty
    | cons f rest =>
      have htypes : ∀ c, Kid t.nodes word p c → f.type.Fits (t.nodes.data c) := fun c hk => by
        obtain ⟨τ, ρ, hτ, hfit⟩ := hs.typed p u c hu hk
        rw [hτ, List.map_cons, List.cons.injEq] at hty
        exact hty.1 ▸ hfit
      have hkid : ∀ c, Kid t.nodes word p c →
          Enters garbage t word c (stackBelow f rest (t.nodes.data c)) := by
        intro c hk
        obtain ⟨v, hv, hwc⟩ := hs.kid_word hk
        rw [hu, Option.some.injEq] at hv
        subst hv
        have hty' : (stackBelow f rest (t.nodes.data c)).map MatchField.type =
            restTypes types (u ++ [t.nodes.data c]) := by
          rw [restTypes_append]
          exact stackBelow_type (htypes c hk) hty
        have hlt := hs.parent_lt hk
        have hbound := Arena.lt_next (hlive c hk)
        -- a child is a leaf, at the end of the match, or a node that the induction covers
        by_cases hcl : (t.nodes.child c).isLeaf = true
        · cases hc : t.nodes.child c with
          | leaf l =>
            have hnil := hs.leaf_typed c _ l hwc hc
            rw [hnil, List.map_eq_nil_iff] at hty'
            exact hty' ▸ enters_leaf (hlive c hk) hc
          | null => simp [hc, Child.isLeaf] at hcl
          | node b => simp [hc, Child.isLeaf] at hcl
          | hash g => simp [hc, Child.isLeaf] at hcl
        · rw [Bool.not_eq_true] at hcl
          exact enters_node (hlive c hk) hcl (ih (t.nodes.arena.next - c) (by omega) hwc hcl
            (h.full c hk.1 (hs.ne_root_of_parent hk.2) id) hty' rfl)
      cases f with
      -- an exact field selects one child at most
      | exact x =>
        obtain ⟨r, hr', hfind⟩ := selectExact_spec x (hs.rep p hp id) hlp hlive hleaf hnull
        cases r with
        | none =>
          refine .nothing (fun l hl => ?_) fun cont out =>
            .of_step (visitStep_missed hr hlp hnull hr') .refl
          obtain ⟨c, hk, htakes, -⟩ := (under_iff hleaf).mp hl
          exact absurd htakes (by simp [takes, hfind.missed rfl c hk])
        | some b =>
          obtain ⟨hkb, hsb⟩ := hfind.found b rfl
          obtain ⟨start, hstart, r, hnd, hmem, hreach⟩ := hkid b hkb
          refine ⟨r, hnd, fun l => ?_, fun cont out =>
            .of_step (visitStep_exact hr hlp hnull hr' (hstart cont out)) (hreach cont out)⟩
          rw [hmem, under_iff hleaf]
          constructor
          · exact fun hl => ⟨b, hkb, hsb, hl⟩
          · rintro ⟨c, hk, htakes, hl⟩
            have hnarrow := hs.narrow_of_type hu hty.symm (by simp [MatchField.type])
            exact Trie.kid_unique hs hnarrow hk htakes hkb hsb ▸ hl
      -- any other field goes through all children, the first one now and the others later
      | any τ =>
        have hka := (hks.mem a).mp (by simp [hsplit])
        obtain ⟨r, hnd, hmem, hreach⟩ :=
          explores_cons h hks (show ks = [] ++ a :: ys from hsplit)
            (.begin p (t.nodes.child p) (.any τ :: rest) true) (hkid a hka)
            (explores_alternatives h hr hp hks hv hkid [a] ys (by simp) hsplit)
            fun cont out next hnext => .of_step (visitStep_any hr hlp hnull hsel hnext) .refl
        refine ⟨r, hnd, fun l => ?_, hreach⟩
        rw [hmem, under_iff hleaf]
        constructor
        · rintro ⟨c, hc, hl⟩
          exact ⟨c, (hks.mem c).mp (hsplit ▸ hc), rfl, hl⟩
        · rintro ⟨c, hk, -, hl⟩
          exact ⟨c, hsplit ▸ (hks.mem c).mpr hk, hl⟩

end

/-! ### The result of a match -/

variable {garbage : Option ℕ} {t : TupleTrie} {types : List FieldType} {word : Words} {ls : List ℕ}
  {m : Match}

/-- The loop over the leaves takes them in the order of the list. -/
theorem allLeaves_spec (hls : ∀ l ∈ ls, t.leaves.arena.live l = true)
    (hlinked : ∀ xs l ys, ls = xs ++ l :: ys → t.leaves.next l = ys.head?) (fuel : ℕ)
    (hfuel : ls.length ≤ fuel) : allLeaves t fuel ls.head? = .ok ls := by
  induction ls generalizing fuel with
  | nil => cases fuel <;> rfl
  | cons l ls ih =>
    obtain ⟨fuel, rfl⟩ : ∃ n, fuel = n + 1 := ⟨fuel - 1, by simp at hfuel; omega⟩
    rw [List.head?_cons, allLeaves, Arena.check_of_live (hls l (by simp)), ok_bind,
      hlinked [] l ls rfl, ih (fun x hx => hls x (by simp [hx]))
        (fun xs x ys he => hlinked (l :: xs) x ys (by simp [he])) fuel (by simpa using hfuel)]
    rfl

/-- The leaves of the tuples that the match accepts, each once. -/
structure Matched (t : TupleTrie) (m : Match) (out : List ℕ) : Prop where
  nodup : out.Nodup
  mem : ∀ l, l ∈ out ↔
    t.leaves.arena.live l = true ∧ m.accepts (t.leaves.payload l).tpl

theorem Inv.matchPredicate (garbage : Option ℕ) (hinv : Inv types t word ls) (hex : ∀ τ ∈ types, τ.Exact)
    (hm : m.fields.map MatchField.type = types)
    (hrefs : m.anyExact = true → (t.numberOfReferences = 0 ↔ t.firstLeaf = none)) :
    ∃ out, (∃ n, ∀ fuel, n ≤ fuel → TupleTrie.matchPredicate garbage t fuel m = .ok out) ∧
      Matched t m out := by
  have hv := hinv.valid
  have hlive := hv.leafList.live
  by_cases hany : m.anyExact = false
  · refine ⟨ls, ⟨0, fun fuel _ => ?_⟩, hv.leafList.nodup, fun l => ?_⟩
    · rw [TupleTrie.matchPredicate, if_pos hany, hv.leafList.first_eq]
      refine allLeaves_spec (fun l hl => (hlive l).mpr hl)
        (fun xs l ys he => ((he ▸ hv.leafList.linked).at_split).2) _ ?_
      exact length_le_of_nodup_of_lt hv.leafList.nodup fun l hl =>
        Arena.lt_next ((hlive l).mpr hl)
    · rw [hlive]
      refine (and_iff_left_of_imp fun hl => m.accepts_of_anyExact hany ?_).symm
      have hlen := congrArg List.length (hm.trans (hinv.typed l hl).types.symm)
      simpa using hlen
  · have href := hrefs (by simpa using hany)
    have hfirst : t.firstLeaf = none ↔ ls = [] := by
      rw [hv.leafList.first_eq, List.head?_eq_none_iff]
    by_cases hr : t.numberOfReferences = 0
    · refine ⟨[], ⟨0, fun fuel _ => by rw [TupleTrie.matchPredicate, if_neg hany, if_pos hr]; rfl⟩,
        List.nodup_nil, fun l => ?_⟩
      rw [hlive, hfirst.mp (href.mp hr)]
      simp
    · have hnull := hv.child_root_ne_null fun hnil => hr (href.mpr (hfirst.mpr hnil))
      obtain ⟨x, hx⟩ := m.exact_iff.mp (by simpa using hany)
      have hleaf : (t.nodes.child t.root).isLeaf = false := by
        cases hc : t.nodes.child t.root with
        | leaf l =>
          have hnil : types = [] := hv.shape.leaf_typed _ [] l hv.shape.root_word hc
          rw [hnil, List.map_eq_nil_iff] at hm
          simp [hm] at hx
        | null => rfl
        | node a => rfl
        | hash g => rfl
      obtain ⟨r, hnd, hmem, hreach⟩ := explores_node garbage hv hr hv.shape.root_word
        hleaf hnull hm
      obtain ⟨n, hn⟩ := iterate_of_reaches (a := r) (hreach [] []) rfl
      refine ⟨r, ⟨n, fun fuel hfuel => ?_⟩, hnd, fun l => ?_⟩
      · rw [TupleTrie.matchPredicate, if_neg hany, if_neg hr,
          Arena.check_of_live (hv.shape.live _ hv.shape.root_some), ok_bind, assert_pos hleaf, ok_bind]
        exact hn fuel hfuel
      · rw [hmem, hlive]
        have hacc : ∀ l ∈ ls, Leads m.fields (levels (t.leaves.payload l).tpl) ↔
            m.accepts (t.leaves.payload l).tpl := fun l hl =>
          leads_levels (hm.trans (hinv.typed l hl).types.symm) (hinv.typed l hl).ok
        constructor
        · rintro ⟨w, y, hd, hy, hw⟩
          have hwy := hv.shape.word_of_down hd hv.shape.root_word
          obtain ⟨hl, hnode⟩ := hv.leafNodes.mem y l (Option.isSome_of_eq_some hwy) hy
          have hword := hinv.word_eq hex hl
          rw [hnode, hwy, List.nil_append, Option.some.injEq] at hword
          exact ⟨hl, (hacc l hl).mp (hword ▸ hw)⟩
        · rintro ⟨hl, ha⟩
          exact ⟨_, _, hv.shape.down_of_word (hinv.word_eq hex hl),
            (hv.leafNodes.attached l hl).2, (hacc l hl).mpr ha⟩

/-- Matching on a trie whose counts have stayed in range. -/
theorem Run.matchPredicate {s : Multiset (List Value)} (hex : ∀ τ ∈ types, τ.Exact)
    (h : Run types t s) (hm : m.fields.map MatchField.type = types) :
    ∃ out, (∃ n, ∀ fuel, n ≤ fuel → TupleTrie.matchPredicate garbage t fuel m = .ok out) ∧
      Matched t m out := by
  obtain ⟨word, ls, hh⟩ := h.holds hex
  refine hh.inv.matchPredicate garbage hex hm fun _ => ?_
  rw [hh.inv.valid.leafList.first_eq, List.head?_eq_none_iff, hh.eq_nil_iff, hh.references]
  simp

/-- On every reachable trie over exact fields, when `number_of_references` is zero only if there
is no leaf, a match terminates and returns the leaves of the tuples that it accepts, each once. -/
theorem matchPredicate_spec (garbage : Option ℕ) (hex : ∀ τ ∈ types, τ.Exact) (h : Reachable types t)
    (hm : m.fields.map MatchField.type = types)
    (hrefs : m.anyExact = true → (t.numberOfReferences = 0 ↔ t.firstLeaf = none)) :
    ∃ out, (∃ n, ∀ fuel, n ≤ fuel → matchPredicate garbage t fuel m = .ok out) ∧
      Matched t m out := by
  obtain ⟨word, ls, hinv⟩ := h.inv
  exact hinv.matchPredicate garbage hex hm hrefs

/-- The trie with the tuples `[7, []]`, `[7, [1]]` and `[8, []]`, and the match of `7`. -/
theorem matchPredicate_spec_lists : ∃ (t : TupleTrie) (m : Match) (out : List ℕ),
    Reachable [.item .int, .list .int] t ∧ t.numberOfReferences = 3 ∧
    m.fields = [.exact (.int 7), .any (.list .int)] ∧
    (∃ n, ∀ fuel, n ≤ fuel → matchPredicate none t fuel m = .ok out) ∧ Matched t m out := by
  let ops : List Op := [.insert [.item (.int 7), .list .int []] 1,
    .insert [.item (.int 7), .list .int [.int 1]] 1, .insert [.item (.int 8), .list .int []] 1]
  have hrun : (runAll Trie.new ops).map (fun t => (t.numberOfReferences, t.firstLeaf)) =
      .ok (3, some 0) := by
    decide +kernel
  cases ht : runAll Trie.new ops with
  | error e => simp [ht, Except.map] at hrun
  | ok t =>
    simp only [ht, Except.map, Except.ok.injEq, Prod.mk.injEq] at hrun
    have hfits : ∀ op ∈ ops, ∀ t, op.Fits [.item .int, .list .int] t := by
      have htpl : ∀ x l, (∀ y ∈ l, y.type = .int) →
          Typed [.item .int, .list .int] [.item (.int x), .list .int l] :=
        fun x l hl => ⟨rfl, by simpa [Value.Ok] using hl⟩
      simp only [ops, List.forall_mem_cons, List.not_mem_nil, false_implies, implies_true, and_true,
        Op.Fits, maxShort]
      exact ⟨fun _ => ⟨htpl 7 [] (by simp), by simp⟩,
        fun _ => ⟨htpl 7 [.int 1] (by simp [Item.type]), by simp⟩,
        fun _ => ⟨htpl 8 [] (by simp), by simp⟩⟩
    have hreach := Reachable.new.runAll hfits ht
    obtain ⟨out, hout, hmatched⟩ := matchPredicate_spec none
      (m := ⟨[.exact (.int 7), .any (.list .int)], true, by simp⟩) (by simp [FieldType.Exact]) hreach
      rfl fun _ => by simp [hrun]
    exact ⟨t, _, out, hreach, hrun.1, rfl, hout, hmatched⟩

/-- Counts that leave their range let a trie without leaves have references, and the search then
stops at an assertion. -/
theorem matchPredicate_wrapped : ∃ (t : TupleTrie) (m : Match), Reachable [.item .int] t ∧
    m.fields = [.exact (.int 7)] ∧
    ∀ garbage fuel, 0 < fuel → matchPredicate garbage t fuel m = .error .assertion := by
  let ops : List Op := [.insert [.item (.int 7)] 32767, .insert [.item (.int 7)] 32767,
    .insert [.item (.int 7)] 3]
  have hrun : (runAll Trie.new ops).map (fun t => (t.leaves.arena.live 0,
      (t.deleteByLeaf 0).map fun t => (t.numberOfReferences, t.nodes.child t.root))) =
      .ok (true, .ok (65536, .null)) := by
    decide +kernel
  cases ht : runAll Trie.new ops with
  | error e => simp [ht, Except.map] at hrun
  | ok t =>
    cases ht' : t.deleteByLeaf 0 with
    | error e => simp [ht, ht', Except.map] at hrun
    | ok t' =>
      simp only [ht, ht', Except.map, Except.ok.injEq, Prod.mk.injEq] at hrun
      obtain ⟨hlive, hrefs, hroot⟩ := hrun
      have hfits : ∀ op ∈ ops, ∀ t, op.Fits [.item .int] t := by
        have htpl : ∀ x, Typed [.item .int] [.item (.int x)] := fun x => ⟨rfl, by simp [Value.Ok]⟩
        simp [ops, Op.Fits, htpl, maxShort]
      have hreach : Reachable [.item .int] t' :=
        (Reachable.new.runAll hfits ht).op (b := false)
          (show Op.Fits [.item .int] t (.deleteByLeaf 0) from hlive) (by simp [Op.run, ht'])
      obtain ⟨word, ls, hinv⟩ := hreach.inv
      refine ⟨t', ⟨[.exact (.int 7)], true, by simp⟩, hreach, rfl, fun garbage fuel hfuel => ?_⟩
      obtain ⟨fuel, rfl⟩ := Nat.exists_eq_add_of_lt hfuel
      simp [matchPredicate, hrefs, hroot, Child.isLeaf, iterate, visitStep, assert,
        Arena.check_of_live (hinv.valid.shape.live _ hinv.valid.shape.root_some)]

end TupleTrie

end Meld.Db
