import Meld.Lib.Loop
import Meld.Db.TupleLookup

/-!
# Matching

`match_predicate` searches a trie for the tuples that satisfy a match object. The search goes
down from the root; at a level where any field will do it takes the first child and leaves a
continuation frame for the next one, and when it fails, or has found a leaf, it resumes the last
frame. The stack of types and the stack of values are one stack of match fields.

The scan of a bucket array reads the entry after the last one before it compares the pointers;
what it finds there is the parameter `garbage`.
-/

namespace Meld.Db

open Meld.Lib Meld.Vm

/-- The `int_field` view of a stored field. -/
def intField : TupleField → Int32
  | .item (.int v) => v
  | .item (.float v) => v.toUInt32.toInt32
  | .item (.node v) => v.toInt32
  | .ptr p => p.toUInt32.toInt32

/-- `continuation_frame`. -/
structure Frame where
  nextNode : ℕ
  stack : List MatchField
  deriving DecidableEq, Repr

/-- Where the search is, with the continuation frames and the leaves found so far. -/
inductive Visit
  /-- `match_begin` -/
  | begin (parent : ℕ) (node : Child) (stack : List MatchField) (goingDown : Bool)
      (cont : List Frame) (out : List ℕ)
  /-- `try_again` -/
  | tryAgain (cont : List Frame) (out : List ℕ)

namespace TupleTrie

section

variable (garbage : Option ℕ) (t : TupleTrie)

/-- What is read at `buckets + i`. -/
def slotAt (h i : ℕ) : Option ℕ :=
  if i < t.hashes.numBuckets h then t.hashes.slots h i else garbage

/-- The loop that skips empty buckets. -/
def skipEmpty (h : ℕ) : ℕ → ℕ → ℕ
  | 0, i => i
  | fuel + 1, i =>
    if slotAt garbage t h i = none ∧ i < t.hashes.numBuckets h then skipEmpty h fuel (i + 1)
    else i

/-- The alternative in a bucket from `i` on, if one of them is not empty. -/
def otherBucket (h i : ℕ) : Exec (Option ℕ) := do
  let j := skipEmpty garbage t h (t.hashes.numBuckets h) i
  if j = t.hashes.numBuckets h then pure none
  else
    match slotAt garbage t h j with
    | some b => pure (some b)
    | none => throw .assertion

/-- The node to go on with when any field will do, and the alternative to it. -/
def selectAny (parent : ℕ) (node : Child) (goingDown : Bool) : Exec (ℕ × Option ℕ) :=
  if t.nodes.hashed parent then
    if goingDown then
      match node with
      | .hash h => do
        t.hashes.arena.check h
        let i := skipEmpty garbage t h (t.hashes.numBuckets h) 0
        assert (i < t.hashes.numBuckets h)
        match slotAt garbage t h i with
        | none => throw .assertion
        | some b => do
          t.nodes.arena.check b
          match t.nodes.next b with
          | some c => pure (b, some c)
          | none => do
            let alt ← otherBucket garbage t h (i + 1)
            pure (b, alt)
      | _ => throw .dangling
    else
      match node with
      | .node b => do
        assert (t.nodes.child parent ≠ .node b)
        let h ← t.getHash parent
        t.nodes.arena.check b
        match t.nodes.next b with
        | some c => pure (b, some c)
        | none =>
          match t.nodes.bucket b with
          | some (array, i) =>
            if array = t.hashes.buckets h then do
              let alt ← otherBucket garbage t h (i + 1)
              pure (b, alt)
            else throw .dangling
          | none => throw .dangling
      | _ => throw .dangling
  else
    match node with
    | .node b => do
      t.nodes.arena.check b
      pure (b, t.nodes.next b)
    | _ => throw .dangling

/-- The child with an exact field. -/
def selectExact (parent : ℕ) (node : Child) (goingDown : Bool) (x : Item) :
    Exec (Option ℕ) := do
  let start ←
    if t.nodes.hashed parent then do
      assert (goingDown = true)
      match node with
      | .hash h => do
        t.hashes.arena.check h
        pure (t.getField h (.item x))
      | _ => throw .dangling
    else
      match node with
      | .node b => pure (some b)
      | _ => throw .dangling
  let r ← t.search (.item x) t.nodes.arena.next start 0
  pure r.1

/-- `match_succeeded`, with what is left on the stack. -/
def matchSucceeded (b : ℕ) (stack : List MatchField) (cont : List Frame) (out : List ℕ) :
    Exec Visit := do
  t.nodes.arena.check b
  match t.nodes.child b with
  | .leaf l => pure (.tryAgain cont (out ++ [l]))
  | c => pure (.begin b c stack true cont out)

/-- The stack after a level where any field will do: the head and the rest of a list follow its
mark. -/
def stackAfter (τ : FieldType) (rest : List MatchField) (d : TupleField) : List MatchField :=
  match τ with
  | .list ι => if intField d = 0 then rest else .any (.item ι) :: .any (.list ι) :: rest
  | _ => rest

/-- `ADD_ALT`, when there is an alternative. -/
def addAlt (alt : Option ℕ) (stack : List MatchField) (cont : List Frame) : List Frame :=
  match alt with
  | some c => ⟨c, stack⟩ :: cont
  | none => cont

/-- One round of the search: what happens at a label, up to the next one. -/
def visitStep : Visit → Exec (Visit ⊕ List ℕ)
  | .tryAgain [] out => pure (.inr out)
  | .tryAgain (frm :: cont) out => do
    t.nodes.arena.check frm.nextNode
    match t.nodes.parent frm.nextNode with
    | some p => pure (.inl (.begin p (.node frm.nextNode) frm.stack false cont out))
    | none => throw .assertion
  | .begin _ _ [] _ _ _ => throw .assertion
  | .begin parent node (f :: rest) goingDown cont out => do
    assert (t.numberOfReferences ≠ 0)
    assert (node ≠ .null)
    t.nodes.arena.check parent
    match f with
    | .exact x => do
      let r ← selectExact t parent node goingDown x
      match r with
      | none => pure (.inl (.tryAgain cont out))
      | some b => do
        let s ← matchSucceeded t b rest cont out
        pure (.inl s)
    | .any τ => do
      let (b, alt) ← selectAny garbage t parent node goingDown
      let s ← matchSucceeded t b (stackAfter τ rest (t.nodes.data b))
        (addAlt alt (f :: rest) cont) out
      pure (.inl s)

/-- The loop of the other `match_predicate`, which takes all leaves. -/
def allLeaves : ℕ → Option ℕ → Exec (List ℕ)
  | _, none => pure []
  | 0, some _ => throw .diverge
  | fuel + 1, some l => do
    t.leaves.arena.check l
    let ls ← allLeaves fuel (t.leaves.next l)
    pure (l :: ls)

/-- `match_predicate`; the search takes at most `fuel` rounds. -/
def matchPredicate (fuel : ℕ) (m : Match) : Exec (List ℕ) :=
  if m.anyExact = false then allLeaves t t.leaves.arena.next t.firstLeaf
  else if t.numberOfReferences = 0 then pure []
  else do
    t.nodes.arena.check t.root
    assert ((t.nodes.child t.root).isLeaf = false)
    iterate (visitStep garbage t) fuel (.begin t.root (t.nodes.child t.root) m.fields true [] [])

end

/-! ### The children of a node in the order of the search -/

variable {garbage : Option ℕ} {t : TupleTrie} {types : List FieldType} {word : Words}
  {ls ks : List ℕ} {p c l : ℕ} {u : List TupleField} {stack rest : List MatchField}
  {f : MatchField}

/-- The children in the buckets from `i` on. -/
def bucketsFrom (t : TupleTrie) (h : ℕ) (chain : ℕ → List ℕ) (i : ℕ) : List ℕ :=
  (List.range' i (t.hashes.numBuckets h - i)).flatMap chain

theorem bucketsFrom_of_lt {h i : ℕ} {chain : ℕ → List ℕ} (hi : i < t.hashes.numBuckets h) :
    bucketsFrom t h chain i = chain i ++ bucketsFrom t h chain (i + 1) := by
  have hn : t.hashes.numBuckets h - i = t.hashes.numBuckets h - (i + 1) + 1 := by omega
  rw [bucketsFrom, hn, List.range'_succ, List.flatMap_cons]
  rfl

theorem bucketsFrom_of_le {h i : ℕ} {chain : ℕ → List ℕ} (hi : t.hashes.numBuckets h ≤ i) :
    bucketsFrom t h chain i = [] := by
  simp [bucketsFrom, Nat.sub_eq_zero_of_le hi]

/-- The scan stops at the first bucket that is not empty, or at the end of the array. -/
theorem skipEmpty_spec (garbage : Option ℕ) {h : ℕ} {chain : ℕ → List ℕ}
    (hslot : ∀ i < t.hashes.numBuckets h, t.hashes.slots h i = (chain i).head?) (fuel i : ℕ)
    (hi : i ≤ t.hashes.numBuckets h) (hfuel : t.hashes.numBuckets h ≤ i + fuel) :
    skipEmpty garbage t h fuel i ≤ t.hashes.numBuckets h ∧
      bucketsFrom t h chain (skipEmpty garbage t h fuel i) = bucketsFrom t h chain i ∧
      (skipEmpty garbage t h fuel i < t.hashes.numBuckets h →
        chain (skipEmpty garbage t h fuel i) ≠ []) := by
  induction fuel generalizing i with
  | zero => exact ⟨hi, rfl, fun hlt => absurd hlt (by simpa [skipEmpty] using hfuel)⟩
  | succ fuel ih =>
    by_cases hstop : slotAt garbage t h i = none ∧ i < t.hashes.numBuckets h
    · obtain ⟨hnone, hlt⟩ := hstop
      have hempty : chain i = [] := by
        rw [slotAt, if_pos hlt, hslot i hlt] at hnone
        exact List.head?_eq_none_iff.mp hnone
      obtain ⟨hle, heq, hne⟩ := ih (i + 1) hlt (by omega)
      simp only [skipEmpty, hnone, hlt, and_self, if_true]
      refine ⟨hle, ?_, hne⟩
      rw [heq, bucketsFrom_of_lt hlt, hempty, List.nil_append]
    · simp only [skipEmpty, if_neg hstop]
      refine ⟨hi, trivial, fun hlt he => hstop ⟨?_, hlt⟩⟩
      rw [slotAt, if_pos hlt, hslot i hlt, he, List.head?_nil]

/-- The alternative in the buckets from `i` on is the first child there. -/
theorem otherBucket_spec {h i : ℕ} {chain : ℕ → List ℕ}
    (hslot : ∀ i < t.hashes.numBuckets h, t.hashes.slots h i = (chain i).head?)
    (hi : i ≤ t.hashes.numBuckets h) :
    otherBucket garbage t h i = .ok (bucketsFrom t h chain i).head? := by
  obtain ⟨hle, heq, hne⟩ := skipEmpty_spec garbage hslot (t.hashes.numBuckets h) i hi
    (Nat.le_add_left _ _)
  simp only [otherBucket]
  generalize skipEmpty garbage t h (t.hashes.numBuckets h) i = j at hle heq hne
  by_cases hj : j = t.hashes.numBuckets h
  · rw [if_pos hj, ← heq, bucketsFrom_of_le hj.ge]
    rfl
  · have hlt : j < t.hashes.numBuckets h := lt_of_le_of_ne hle hj
    obtain ⟨b, zs, hb⟩ := List.exists_cons_of_ne_nil (hne hlt)
    rw [if_neg hj, slotAt, if_pos hlt, hslot j hlt, ← heq, bucketsFrom_of_lt hlt, hb]
    rfl

/-- The search visits the children of `p` in the order of the list `ks`. -/
structure Visits (garbage : Option ℕ) (t : TupleTrie) (p : ℕ) (ks : List ℕ) : Prop where
  first : ∃ a ys, ks = a :: ys ∧
    selectAny garbage t p (t.nodes.child p) true = .ok (a, ys.head?)
  next : ∀ xs a ys, xs ≠ [] → ks = xs ++ a :: ys →
    selectAny garbage t p (.node a) false = .ok (a, ys.head?)

/-- A list without repetition splits in one way only at an element. -/
private theorem split_unique {xs ys xs' ys' : List ℕ} {a : ℕ} (hnd : (xs ++ a :: ys).Nodup)
    (h : xs ++ a :: ys = xs' ++ a :: ys') : ys = ys' := by
  have hxs : a ∉ xs := fun ha => (List.nodup_append.mp hnd).2.2 a ha a (by simp) rfl
  have hys : a ∉ ys := (List.nodup_cons.mp (List.nodup_append.mp hnd).2.1).1
  exact ((List.append_cons_inj_of_notMem hxs hys).mp h).2.2

/-- However the children are stored, the search visits them all. -/
theorem exists_visits (garbage : Option ℕ) (hrep : NodeRep t.nodes t.hashes word p)
    (hlive : ∀ c, Kid t.nodes word p c → t.nodes.arena.live c = true)
    (hp : t.nodes.arena.live p = true) (hleaf : (t.nodes.child p).isLeaf = false)
    (hnull : t.nodes.child p ≠ .null) :
    ∃ ks, Kids t.nodes word p ks ∧ Visits garbage t p ks := by
  cases hrep with
  | null hc => exact absurd hc hnull
  | leaf l hc => simp [hc, Child.isLeaf] at hleaf
  | plain b ks hc hh hks hd hl hb =>
    have hsel : ∀ down xs a ys, ks = xs ++ a :: ys →
        selectAny garbage t p (.node a) down = .ok (a, ys.head?) := by
      intro down xs a ys he
      have ha := hlive a ((hks.mem a).mp (by simp [he]))
      simp [selectAny, hh, Arena.check_of_live ha, ((he ▸ hl).at_split).2]
    cases ks with
    | nil => simp at hd
    | cons a ys =>
      obtain rfl : a = b := by simpa using hd
      exact ⟨_, hks, ⟨a, ys, rfl, hc ▸ hsel true [] a ys rfl⟩, fun xs a ys _ => hsel false xs a ys⟩
  | table h ks chain hc hh hks hne hlh _ htotal ht =>
    have hmem : ∀ c, c ∈ bucketsFrom t h chain 0 ↔ Kid t.nodes word p c := by
      intro c
      simp only [bucketsFrom, List.mem_flatMap, List.mem_range'_1]
      constructor
      · rintro ⟨i, hi, hci⟩
        exact ((ht.mem i (by omega) c).mp hci).1
      · intro hk
        have hlt := HashHeap.item_lt ht.size (hashField (t.nodes.data c))
        exact ⟨_, by omega, (ht.mem _ hlt c).mpr ⟨hk, rfl⟩⟩
    have hnd : (bucketsFrom t h chain 0).Nodup := by
      refine List.nodup_flatMap.mpr ⟨fun i hi => ht.nodup i ?_, ?_⟩
      · rw [List.mem_range'_1] at hi
        omega
      · refine List.Nodup.pairwise_of_forall_ne List.nodup_range' fun i hi j hj hij => ?_
        rw [List.mem_range'_1] at hi hj
        refine List.disjoint_left.mpr fun c hci hcj => hij ?_
        exact ((ht.mem i (by omega) c).mp hci).2.symm.trans ((ht.mem j (by omega) c).mp hcj).2
    -- where a child stands among the others, and what its next pointer says about them
    have hat : ∀ i < t.hashes.numBuckets h, ∀ us a vs, chain i = us ++ a :: vs →
        ∃ zs, bucketsFrom t h chain 0 = zs ++ us ++ a :: (vs ++ bucketsFrom t h chain (i + 1)) ∧
          t.nodes.next a = vs.head? := by
      intro i hi us a vs he
      have hfrom : ∀ j, j ≤ i → ∃ zs,
          bucketsFrom t h chain j = zs ++ us ++ a :: (vs ++ bucketsFrom t h chain (i + 1)) := by
        intro j hj
        induction hn : i - j generalizing j with
        | zero =>
          obtain rfl : j = i := by omega
          exact ⟨[], by rw [bucketsFrom_of_lt hi, he]; simp⟩
        | succ n ih =>
          obtain ⟨zs, hzs⟩ := ih (j + 1) (by omega) (by omega)
          exact ⟨chain j ++ zs, by rw [bucketsFrom_of_lt (by omega), hzs]; simp⟩
      obtain ⟨zs, hzs⟩ := hfrom 0 (Nat.zero_le _)
      exact ⟨zs, hzs, ((he ▸ ht.linked i hi).at_split).2⟩
    refine ⟨_, ⟨hnd, hmem⟩, ?_, fun xs a ys hxs he => ?_⟩
    · obtain ⟨hle, heq, hne'⟩ := skipEmpty_spec garbage ht.slot
        (t.hashes.numBuckets h) 0 (Nat.zero_le _) (by omega)
      generalize hj : skipEmpty garbage t h (t.hashes.numBuckets h) 0 = j at hle heq hne'
      have hlt : j < t.hashes.numBuckets h := by
        by_contra hge
        obtain ⟨c, hcks⟩ := List.exists_mem_of_ne_nil ks hne
        have hcm := (hmem c).mpr ((hks.mem c).mp hcks)
        rw [← heq, bucketsFrom_of_le (by omega)] at hcm
        cases hcm
      obtain ⟨b, vs, hb⟩ := List.exists_cons_of_ne_nil (hne' hlt)
      obtain ⟨-, -, hnext⟩ := hat j hlt [] b vs hb
      have hlb := hlive b ((ht.mem j hlt b).mp (by simp [hb])).1
      refine ⟨b, vs ++ bucketsFrom t h chain (j + 1), ?_, ?_⟩
      · rw [← heq, bucketsFrom_of_lt hlt, hb]
        rfl
      · have hslot : slotAt garbage t h j = some b := by
          rw [slotAt, if_pos hlt, ht.slot j hlt, hb]
          rfl
        simp only [selectAny, hh, if_true, hc, Arena.check_of_live hlh, ok_bind, hj,
          assert_pos hlt, hslot, Arena.check_of_live hlb, hnext]
        cases vs with
        | nil => simp [otherBucket_spec ht.slot (Nat.succ_le_of_lt hlt)]
        | cons c vs => rfl
    · have hka := (hmem a).mp (by simp [he])
      have hlt := HashHeap.item_lt ht.size (hashField (t.nodes.data a))
      have hma := (ht.mem _ hlt a).mpr ⟨hka, rfl⟩
      have hbucket := ht.bucket a hka
      generalize t.hashes.item h (hashField (t.nodes.data a)) = i at hlt hma hbucket
      obtain ⟨us, vs, hsplit⟩ := List.append_of_mem hma
      obtain ⟨zs, hzs, hnext⟩ := hat i hlt us a vs hsplit
      obtain rfl := split_unique (he ▸ hnd) (he.symm.trans hzs)
      have hget : t.getHash p = .ok h := by
        simp [Trie.getHash, Arena.check_of_live hp, hc, Arena.check_of_live hlh]
      simp only [selectAny, hh, if_true, Bool.false_eq_true, if_false, hc, hget,
        Arena.check_of_live (hlive a hka), ok_bind, pure_eq_ok, hnext]
      cases vs with
      | nil => simp [assert, hbucket, otherBucket_spec ht.slot (Nat.succ_le_of_lt hlt)]
      | cons c vs => rfl

end TupleTrie

end Meld.Db
