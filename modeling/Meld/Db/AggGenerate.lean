import Meld.Db.AggTelescope

/-!
# What `generate` asserts

On tuples of the types that its aggregate expects a configuration's `generate` returns, whatever
the numbers are; only the sums of lists need more, lists of one length.
-/

namespace Meld.Vm

/-- The aggregate expects a field of this type. -/
def AggregateType.Fits (types : List FieldType) (field : ℕ) : AggregateType → Prop
  | first => True
  | maxInt | minInt | sumInt => types[field]? = some (.item .int)
  | maxFloat | minFloat | sumFloat => types[field]? = some (.item .float)
  | sumListFloat => types[field]? = some (.list .float)

end Meld.Vm

namespace Meld.Db

open Meld.Lib Meld.Vm

/-- The length of the list in a field of a tuple. -/
def listLength (field : ℕ) (tpl : List Value) : ℕ :=
  match tpl[field]? with
  | some (.list _ l) => l.length
  | _ => 0

/-- The canonical form keeps the length of a list. -/
theorem listLength_canon (field : ℕ) (tpl : List Value) :
    listLength field (canon tpl) = listLength field tpl := by
  rw [listLength, listLength, canon, List.getElem?_map]
  rcases tpl[field]? with _ | (_ | _ | _)
  · rfl
  · rfl
  · simp [Value.canon]
  · rfl

namespace AggConfiguration

section

variable {V : Type} {get : List Value → Exec V} {F : FloatOps} {types : List FieldType}
  {typ : AggregateType} {field : ℕ} {conf : AggConfiguration} {tpl : List Value}
  {ts : List TupleTrieLeaf}

/-- The search for the best tuple returns one of the tuples. -/
theorem bestFrom_returns (beats : V → V → Bool) (hget : ∀ s ∈ ts, ∃ v, get s.tpl = .ok v)
    (hts : ∀ s ∈ ts, Regular s.tpl) (val : V) {best : List Value} (hbest : Regular best) :
    ∃ tpl, bestFrom get beats val best ts = .ok tpl ∧ (tpl = best ∨ ∃ s ∈ ts, tpl = s.tpl) := by
  induction ts generalizing val best with
  | nil => exact ⟨best, copyTuple_eq hbest, .inl rfl⟩
  | cons s rest ih =>
    have ih := ih (fun x hx => hget x (by simp [hx])) fun x hx => hts x (by simp [hx])
    obtain ⟨v, hv⟩ := hget s (by simp)
    rw [bestFrom, hv, ok_bind]
    split_ifs
    · obtain ⟨tpl, hok, h⟩ := ih v (hts s (by simp))
      refine ⟨tpl, hok, .inr ?_⟩
      rcases h with rfl | ⟨x, hx, rfl⟩
      · exact ⟨s, by simp, rfl⟩
      · exact ⟨x, by simp [hx], rfl⟩
    · obtain ⟨tpl, hok, h⟩ := ih val hbest
      refine ⟨tpl, hok, h.imp_right ?_⟩
      rintro ⟨x, hx, he⟩
      exact ⟨x, by simp [hx], he⟩

/-- A maximum or minimum is one of the tuples. -/
theorem generateBest_returns (get : List Value → Exec V) (beats : V → V → Bool)
    (hget : ∀ s ∈ ts, ∃ v, get s.tpl = .ok v)
    (hts : ∀ s ∈ ts, Regular s.tpl) (hne : ts ≠ []) :
    ∃ tpl, generateBest get beats ts = .ok tpl ∧ ∃ s ∈ ts, tpl = s.tpl := by
  obtain ⟨s, rest, rfl⟩ := List.exists_cons_of_ne_nil hne
  obtain ⟨v, hv⟩ := hget s (by simp)
  obtain ⟨tpl, hok, h⟩ := bestFrom_returns beats (fun x hx => hget x (List.mem_cons_of_mem s hx))
    (fun x hx => hts x (List.mem_cons_of_mem s hx)) v (hts s (by simp))
  refine ⟨tpl, by rw [generateBest, hv, ok_bind, hok], ?_⟩
  rcases h with rfl | ⟨x, hx, rfl⟩
  · exact ⟨s, by simp, rfl⟩
  · exact ⟨x, by simp [hx], rfl⟩

/-- Adding a tuple as often as it counts returns. -/
theorem addCopies_returns (add : V → V → V) (hget : ∃ v, get tpl = .ok v) (n : ℕ) (sum : V) :
    ∃ v, addCopies get add tpl n sum = .ok v := by
  obtain ⟨v, hv⟩ := hget
  induction n generalizing sum with
  | zero => exact ⟨sum, rfl⟩
  | succ n ih =>
    rw [addCopies, hv, ok_bind]
    exact ih _

/-- Adding all tuples returns. -/
theorem sumFrom_returns (add : V → V → V) (hget : ∀ s ∈ ts, ∃ v, get s.tpl = .ok v) (sum : V) :
    ∃ v, sumFrom get add sum ts = .ok v := by
  induction ts generalizing sum with
  | nil => exact ⟨sum, rfl⟩
  | cons s rest ih =>
    obtain ⟨v, hv⟩ := addCopies_returns add (hget s (by simp)) s.count.toNat sum
    rw [sumFrom, hv, ok_bind]
    exact ih (fun x hx => hget x (by simp [hx])) v

/-- A sum is in a copy of the first tuple. -/
theorem generateSum_returns (get : List Value → Exec V) (add : V → V → V) (zero : V)
    (put : V → Value) (field : ℕ)
    (hget : ∀ s ∈ ts, ∃ v, get s.tpl = .ok v) (hts : ∀ s ∈ ts, Regular s.tpl) (hne : ts ≠ []) :
    ∃ tpl, generateSum get add zero put field ts = .ok tpl ∧
      ∃ s ∈ ts, ∃ v, tpl = s.tpl.set field (put v) := by
  obtain ⟨v, hv⟩ := sumFrom_returns add hget zero
  obtain ⟨s, rest, rfl⟩ := List.exists_cons_of_ne_nil hne
  refine ⟨s.tpl.set field (put v), ?_, s, by simp, v, rfl⟩
  rw [generateSum, copyTuple_eq (hts s (by simp)), ok_bind, hv]
  rfl

/-- The lists of the copies, when all have one length. -/
theorem floatLists_returns (field : ℕ) (len : ℕ)
    (hget : ∀ s ∈ ts, ∃ l, getFloatList s.tpl field = .ok l ∧ l.length = len ∧
      ∀ x ∈ l, x.type = .float) (hpos : ∀ s ∈ ts, 0 ≤ s.count) :
    ∃ lists, floatLists field len ts = .ok lists ∧
      (∀ l ∈ lists, l.length = len ∧ ∀ x ∈ l, x.type = .float) ∧
      (lists.length : ℤ) = (ts.map fun s => s.count).sum := by
  induction ts with
  | nil => exact ⟨[], rfl, by simp, rfl⟩
  | cons s rest ih =>
    obtain ⟨l, hl, hlen, hfloat⟩ := hget s (by simp)
    obtain ⟨lists, hok, hall, hlength⟩ :=
      ih (fun x hx => hget x (by simp [hx])) fun x hx => hpos x (by simp [hx])
    have hs := hpos s (by simp)
    refine ⟨List.replicate s.count.toNat l ++ lists, ?_, fun x hx => ?_, ?_⟩
    · rw [floatLists, hl, ok_bind, assert_pos fun _ => hlen, ok_bind, hok]
      rfl
    · rcases List.mem_append.mp hx with hx | hx
      · rw [List.eq_of_mem_replicate hx]
        exact ⟨hlen, hfloat⟩
      · exact hall x hx
    · rw [List.length_append, List.length_replicate, List.map_cons, List.sum_cons, ← hlength]
      omega

/-- The heads of lists that are not empty can be read. -/
theorem mapM_floatHead {n : ℕ} {lists : List (List Item)}
    (h : ∀ l ∈ lists, l.length = n + 1 ∧ ∀ x ∈ l, x.type = .float) :
    ∃ heads, lists.mapM floatHead = .ok heads := by
  induction lists with
  | nil => exact ⟨[], rfl⟩
  | cons l lists ih =>
    obtain ⟨heads, hok⟩ := ih fun x hx => h x (by simp [hx])
    obtain ⟨hlen, hfloat⟩ := h l (by simp)
    obtain ⟨x, l, rfl⟩ := List.exists_cons_of_length_eq_add_one hlen
    have hx := hfloat x (by simp)
    cases x with
    | float v =>
      exact ⟨v :: heads, by rw [List.mapM_cons, floatHead, pure_eq_ok, ok_bind, hok]; rfl⟩
    | int v => cases hx
    | node v => cases hx

/-- Lists of one length are added column by column. -/
theorem sumColumns_returns (F : FloatOps) {n : ℕ} {lists : List (List Item)}
    (h : ∀ l ∈ lists, l.length = n ∧ ∀ x ∈ l, x.type = .float) :
    ∃ sums, sumColumns F n lists = .ok sums ∧ ∀ x ∈ sums, x.type = .float := by
  induction n generalizing lists with
  | zero =>
    refine ⟨[], ?_, by simp⟩
    rw [sumColumns, assert_pos fun l hl => List.eq_nil_of_length_eq_zero (h l hl).1]
    rfl
  | succ n ih =>
    obtain ⟨heads, hheads⟩ := mapM_floatHead h
    have htails : ∀ l ∈ lists.map List.tail, l.length = n ∧ ∀ x ∈ l, x.type = .float := by
      intro l hl
      obtain ⟨l, hl', rfl⟩ := List.mem_map.mp hl
      obtain ⟨hlen, hfl⟩ := h l hl'
      exact ⟨by rw [List.length_tail, hlen]; rfl, fun x hx => hfl x (List.mem_of_mem_tail hx)⟩
    obtain ⟨sums, hok, hfloat⟩ := ih htails
    refine ⟨.float (heads.foldl F.add 0) :: sums, ?_, fun x hx => ?_⟩
    · rw [sumColumns, hheads, ok_bind, hok]
      rfl
    · rcases List.mem_cons.mp hx with rfl | hx
      · rfl
      · exact hfloat x hx

end

section

variable {F : FloatOps} {types : List FieldType} {typ : AggregateType} {field : ℕ}
  {conf : AggConfiguration} {tpl : List Value} {cont : List Emission}
  {s : Multiset (List Value)} {word : Words} {ls : List ℕ} {v : Value} {ι : ItemType}

/-- A tuple of the predicate without strings. -/
structure Comparable (types : List FieldType) (tpl : List Value) : Prop where
  types : tpl.map Value.type = types
  noString : ∀ v ∈ tpl, v.type ≠ .string

/-- A regular tuple of the types can be compared. -/
theorem Comparable.of_regular (hty : tpl.map Value.type = types) (h : Regular tpl) :
    Comparable types tpl := by
  refine ⟨hty, fun v hv hs => ?_⟩
  have hr := h v hv
  cases v with
  | item x => cases hs
  | list τ l => cases hs
  | string p => exact hr

/-- Another value of the type of a field. -/
theorem Comparable.set (h : Comparable types tpl) (hfield : types[field]? = some v.type)
    (hv : v.type ≠ .string) : Comparable types (tpl.set field v) := by
  refine ⟨?_, fun w hw => ?_⟩
  · obtain ⟨hlt, hget⟩ := List.getElem?_eq_some_iff.mp hfield
    rw [List.map_set, h.types, ← hget, List.set_getElem_self]
  · rcases List.mem_or_eq_of_mem_set hw with hw | rfl
    · exact h.noString w hw
    · exact hv

/-- The value in a field of a typed tuple. -/
private theorem exists_field {τ : FieldType} (hty : tpl.map Value.type = types)
    (hfield : types[field]? = some τ) : ∃ v ∈ tpl, tpl[field]? = some v ∧ v.type = τ := by
  rw [← hty, List.getElem?_map, Option.map_eq_some_iff] at hfield
  obtain ⟨v, hv, hτ⟩ := hfield
  exact ⟨v, List.mem_of_getElem? hv, hv, hτ⟩

/-- The field of a scalar type has a scalar. -/
private theorem exists_item (hty : tpl.map Value.type = types)
    (hfield : types[field]? = some (.item ι)) :
    ∃ x : Item, tpl[field]? = some (.item x) ∧ x.type = ι := by
  obtain ⟨v, -, hv, hτ⟩ := exists_field hty hfield
  cases v with
  | item x => exact ⟨x, hv, FieldType.item.inj hτ⟩
  | list τ l => cases hτ
  | string p => cases hτ

/-- An integer is read from a field of its type. -/
theorem getInt_returns (hty : tpl.map Value.type = types)
    (hfield : types[field]? = some (.item .int)) : ∃ v, getInt tpl field = .ok v := by
  obtain ⟨x, hx, hτ⟩ := exists_item hty hfield
  cases x with
  | int v => exact ⟨v, by rw [getInt, hx]; rfl⟩
  | float v => cases hτ
  | node v => cases hτ

/-- A float is read from a field of its type. -/
theorem getFloat_returns (hty : tpl.map Value.type = types)
    (hfield : types[field]? = some (.item .float)) : ∃ v, getFloat tpl field = .ok v := by
  obtain ⟨x, hx, hτ⟩ := exists_item hty hfield
  cases x with
  | int v => cases hτ
  | float v => exact ⟨v, by rw [getFloat, hx]; rfl⟩
  | node v => cases hτ

/-- A list of floats is read from a field of its type. -/
theorem getFloatList_returns (hty : tpl.map Value.type = types) (hok : ∀ v ∈ tpl, v.Ok)
    (hfield : types[field]? = some (.list .float)) :
    ∃ l, getFloatList tpl field = .ok l ∧ l.length = listLength field tpl ∧
      ∀ x ∈ l, x.type = .float := by
  obtain ⟨v, hmem, hv, hτ⟩ := exists_field hty hfield
  cases v with
  | item x => cases hτ
  | string p => cases hτ
  | list τ l =>
    obtain rfl : τ = .float := FieldType.list.inj hτ
    exact ⟨l, by rw [getFloatList, hv]; rfl, by rw [listLength, hv], hok _ hmem⟩

/-- The sum of the lists of a trie, when all have one length. -/
theorem generateSumListFloat_returns (h : TupleTrie.Holds types conf.vals s word ls)
    (hreg : ∀ tpl ∈ s, Regular tpl) (hfield : types[field]? = some (.list .float)) {len : ℕ}
    (hlen : ∀ tpl ∈ s, listLength field tpl = len) (hne : ls ≠ []) :
    ∃ tpl, generateSumListFloat F conf.vals.numberOfReferences field
      (ls.map conf.vals.leaves.payload) = .ok tpl ∧ Comparable types tpl := by
  set ts := ls.map conf.vals.leaves.payload with hts
  have hget : ∀ s ∈ ts, ∃ l, getFloatList s.tpl field = .ok l ∧ l.length = len ∧
      ∀ x ∈ l, x.type = .float := fun x hx => by
    obtain ⟨l, hl, rfl⟩ := List.mem_map.mp hx
    obtain ⟨hty, hok⟩ := h.inv.typed l hl
    obtain ⟨fl, hfl, hlength, hfloat⟩ := getFloatList_returns hty hok hfield
    refine ⟨fl, hfl, ?_, hfloat⟩
    rw [hlength, ← listLength_canon]
    exact hlen _ (h.mem l hl)
  have hpos : ∀ s ∈ ts, 0 ≤ s.count := fun x hx => by
    obtain ⟨l, hl, rfl⟩ := List.mem_map.mp hx
    rw [h.count l hl]
    omega
  obtain ⟨lists, hlists, hall, hlength⟩ := floatLists_returns field len hget hpos
  obtain ⟨sums, hsums, hfloat⟩ := sumColumns_returns F hall
  -- the array has a place for each copy
  have hcount : (lists.length : ℤ) = conf.vals.numberOfReferences := by
    rw [hlength, h.references, ← h.sum, hts, List.map_map]
    rfl
  obtain ⟨x, rest, hx⟩ := List.exists_cons_of_ne_nil (l := ts) (by simpa [hts] using hne)
  obtain ⟨first, hfirst, hflen, -⟩ := hget x (by simp [hx])
  obtain ⟨l, hl, hlx⟩ := List.mem_map.mp (hx ▸ List.mem_cons_self : x ∈ ts)
  have hxreg : Regular x.tpl := regular_canon.mp (hlx ▸ hreg _ (h.mem l hl))
  have hcomp := Comparable.of_regular (hlx ▸ (h.inv.typed l hl).types) hxreg
  have hcopy : copyTuple (x.tpl.set field (.list .float [])) =
      .ok (x.tpl.set field (.list .float [])) := by
    refine copyTuple_eq fun v hv => ?_
    rcases List.mem_or_eq_of_mem_set hv with hv | rfl
    · exact hxreg v hv
    · simp [Value.Regular]
  refine ⟨(x.tpl.set field (.list .float [])).set field (.list .float sums), ?_,
    (hcomp.set (v := .list .float []) hfield (by simp [Value.type])).set
      (v := .list .float sums) hfield (by simp [Value.type])⟩
  rw [hx] at hlists ⊢
  rw [generateSumListFloat, hfirst, ok_bind, hcopy, ok_bind, hflen, hlists, ok_bind,
    assert_pos hcount.le, ok_bind, if_neg (by omega), hsums]
  rfl

/-- `do_generate` returns. -/
theorem doGenerate_returns (F : FloatOps) (h : TupleTrie.Holds types conf.vals s word ls)
    (hreg : ∀ tpl ∈ s, Regular tpl) (hfits : typ.Fits types field)
    (hlen : typ = .sumListFloat → ∃ len, ∀ tpl ∈ s, listLength field tpl = len) :
    ∃ r, doGenerate F typ field conf = .ok r ∧ ∀ c, r = some c → Comparable types c := by
  have hempty : conf.isEmpty = decide (ls = []) := by
    rw [isEmpty, h.references, beq_eq_decide]
    exact decide_eq_decide.mpr (by rw [h.eq_nil_iff, ← Multiset.card_eq_zero]; omega)
  by_cases hnil : ls = []
  · exact ⟨none, by rw [doGenerate, hempty, decide_eq_true hnil, if_pos rfl]; rfl, by simp⟩
  set ts := ls.map conf.vals.leaves.payload with hts
  have hne : ts ≠ [] := by simpa [hts] using hnil
  -- the leaves hold regular tuples of the predicate
  have hplain : ∀ s ∈ ts, Regular s.tpl ∧ Comparable types s.tpl := fun x hx => by
    obtain ⟨l, hl, rfl⟩ := List.mem_map.mp hx
    have hr : Regular (conf.vals.leaves.payload l).tpl := regular_canon.mp (hreg _ (h.mem l hl))
    exact ⟨hr, .of_regular (h.inv.typed l hl).types hr⟩
  have hts' : ∀ s ∈ ts, Regular s.tpl := fun x hx => (hplain x hx).1
  have hmem : ∀ tpl, (∃ s ∈ ts, tpl = s.tpl) → Comparable types tpl := by
    rintro _ ⟨x, hx, rfl⟩
    exact (hplain x hx).2
  -- there are leaves, so that a tuple is generated
  suffices hgen : ∃ tpl, generateOf F typ field conf.vals.numberOfReferences ts = .ok tpl ∧
      Comparable types tpl by
    obtain ⟨tpl, hok, hcomp⟩ := hgen
    refine ⟨some tpl, ?_, fun c hc => Option.some.inj hc ▸ hcomp⟩
    exact doGenerate_of_generateOf F (by rw [hempty, decide_eq_false hnil]) (tuples_eq h) hok
  -- the field has the type that the aggregate reads
  have hint : types[field]? = some (.item .int) → ∀ s ∈ ts, ∃ v, getInt s.tpl field = .ok v :=
    fun hf x hx => getInt_returns (hplain x hx).2.types hf
  have hfloat : types[field]? = some (.item .float) →
      ∀ s ∈ ts, ∃ v, getFloat s.tpl field = .ok v :=
    fun hf x hx => getFloat_returns (hplain x hx).2.types hf
  cases typ with
  | first =>
    obtain ⟨x, rest, hx⟩ := List.exists_cons_of_ne_nil hne
    have hxm : x ∈ ts := hx ▸ List.mem_cons_self
    exact ⟨x.tpl, by rw [hx]; exact copyTuple_eq (hts' x hxm), (hplain x hxm).2⟩
  | maxInt =>
    obtain ⟨tpl, hok, hm⟩ := generateBest_returns (getInt · field)
      (fun other val => decide (val < other)) (hint hfits) hts' hne
    exact ⟨tpl, hok, hmem tpl hm⟩
  | minInt =>
    obtain ⟨tpl, hok, hm⟩ := generateBest_returns (getInt · field)
      (fun other val => decide (val > other)) (hint hfits) hts' hne
    exact ⟨tpl, hok, hmem tpl hm⟩
  | sumInt =>
    obtain ⟨tpl, hok, x, hx, v, rfl⟩ := generateSum_returns (getInt · field) (· + ·) 0
      (fun v => .item (.int v)) field (hint hfits) hts' hne
    exact ⟨_, hok, (hplain x hx).2.set hfits (by simp [Value.type])⟩
  | maxFloat =>
    obtain ⟨tpl, hok, hm⟩ := generateBest_returns (getFloat · field)
      (fun other val => F.lt val other) (hfloat hfits) hts' hne
    exact ⟨tpl, hok, hmem tpl hm⟩
  | minFloat =>
    obtain ⟨tpl, hok, hm⟩ := generateBest_returns (getFloat · field)
      (fun other val => F.lt other val) (hfloat hfits) hts' hne
    exact ⟨tpl, hok, hmem tpl hm⟩
  | sumFloat =>
    obtain ⟨tpl, hok, x, hx, v, rfl⟩ := generateSum_returns (getFloat · field) F.add 0
      (fun v => .item (.float v)) field (hfloat hfits) hts' hne
    exact ⟨_, hok, (hplain x hx).2.set hfits (by simp [Value.type])⟩
  | sumListFloat =>
    obtain ⟨len, hlen⟩ := hlen rfl
    exact generateSumListFloat_returns h hreg hfits hlen hnil

/-- `generate` returns, and changes nothing of the tuples. -/
theorem generate_returns (F : FloatOps) (h : TupleTrie.Holds types conf.vals s word ls)
    (hreg : ∀ tpl ∈ s, Regular tpl) (hfits : typ.Fits types field)
    (hlen : typ = .sumListFloat → ∃ len, ∀ tpl ∈ s, listLength field tpl = len)
    (hcorr : ∀ c, conf.corresponds = some c → Comparable types c) (cont : List Emission) :
    ∃ r cont', conf.generate F typ field cont =
        .ok ({ conf with changed := false, corresponds := r }, cont') ∧
      ∀ c, r = some c → Comparable types c := by
  obtain ⟨r, hr, hcomp⟩ := doGenerate_returns F h hreg hfits hlen
  suffices hemit : ∃ cont', conf.generate F typ field cont =
      .ok ({ conf with changed := false, corresponds := r }, cont') by
    obtain ⟨cont', hok⟩ := hemit
    exact ⟨r, cont', hok, hcomp⟩
  rw [AggConfiguration.generate, hr, ok_bind]
  cases hc : conf.corresponds with
  | none => cases r with
    | none => exact ⟨_, rfl⟩
    | some d => exact ⟨_, rfl⟩
  | some c => cases r with
    | none => exact ⟨_, rfl⟩
    | some d =>
      obtain ⟨b, hb, -⟩ := tupleEqual_of_noString
        ((hcorr c hc).types.trans (hcomp d rfl).types.symm) (hcorr c hc).noString
      simp only [hb, ok_bind]
      cases b <;> exact ⟨_, rfl⟩

end

end AggConfiguration

end Meld.Db
