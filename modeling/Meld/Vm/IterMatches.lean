import Meld.Vm.Operands
import Meld.Vm.Match

/-!
# The conditions of an iteration

The conditions of an `ITER_INSTR` have two readers. `build_match_object` makes a match object of
them, for the lookup in a trie; `do_matches` checks them on one tuple. A tuple that `do_matches`
accepts satisfies the match object (`accepts_of_meets`). The converse fails when a condition is
of a kind that `do_match` throws on, and when a field has several conditions, since the match object
keeps the last of them (`matches_agree_iff`).
-/

namespace Meld.Vm.Bytecode

open Lib Lib.Bytes Linker

/-! ### Values of operands -/

/-- A word as a value of the type. -/
def itemOf : ItemType → UInt64 → Item
  | .int, w => .int w.toUInt32.toInt32
  | .float, w => .float w
  | .node, w => .node w.toUInt32

/-- A word that has a value. -/
def wordOf : Item → UInt64
  | .int x => x.toUInt32.toUInt64
  | .float x => x
  | .node x => x.toUInt64

/-- A scalar is read back from its word. -/
theorem itemOf_wordOf (x : Item) : itemOf x.type (wordOf x) = x := by
  cases x <;> simp [Item.type, itemOf, wordOf]

/-- A word is read as a scalar of the type. -/
theorem itemOf_type (τ : ItemType) (w : UInt64) : (itemOf τ w).type = τ := by
  cases τ <;> rfl

/-- `get_op_function<int_val>`: the value and the code behind the operand. -/
def getOpInt (v : ℕ) (m : List UInt8) (s : State) : Exec (Item × List UInt8) := do
  match valKind v with
  | some .int => return (.int (← pcounterInt m).toInt32, m.drop 4)
  | some .reg => return (itemOf .int (s.regs (valReg v)), m)
  | some .field =>
    let t ← s.getTuple (← valFieldReg m)
    let field ← valFieldNum m
    return (itemOf .int (← t.getField field), m.drop 2)
  | some .const =>
    let cid ← pcounterInt m
    return (itemOf .int (← s.getConst cid.toNat), m.drop 4)
  | _ => .error .thrown

/-- `get_op_function<float_val>`. -/
def getOpFloat (v : ℕ) (m : List UInt8) (s : State) : Exec (Item × List UInt8) := do
  match valKind v with
  | some .float => return (.float (← pcounterFloat m), m.drop 8)
  | some .reg => return (itemOf .float (s.regs (valReg v)), m)
  | some .field =>
    let t ← s.getTuple (← valFieldReg m)
    let field ← valFieldNum m
    return (itemOf .float (← t.getField field), m.drop 2)
  | some .const =>
    let cid ← pcounterInt m
    return (itemOf .float (← s.getConst cid.toNat), m.drop 4)
  | _ => .error .thrown

/-- `get_op_function<node_val>`. -/
def getOpNode (v : ℕ) (m : List UInt8) (s : State) : Exec (Item × List UInt8) := do
  match valKind v with
  | some .host => return (.node s.nodeId, m)
  | some .node => return (.node (← getNodeVal m s), m.drop 4)
  | some .reg => return (itemOf .node (s.regs (valReg v)), m)
  | some .field =>
    let t ← s.getTuple (← valFieldReg m)
    let field ← valFieldNum m
    return (itemOf .node (← t.getField field), m.drop 2)
  | some .const =>
    let cid ← pcounterInt m
    return (itemOf .node (← s.getConst cid.toNat), m.drop 4)
  | _ => .error .thrown

/-- The `switch` of `build_match_object`. -/
def getOp : FieldType → ℕ → List UInt8 → State → Exec (Item × List UInt8)
  | .item .int => getOpInt
  | .item .float => getOpFloat
  | .item .node => getOpNode
  | _ => fun _ _ _ => .error .thrown

/-- A value that only the function of its type reads. -/
def literal (τ : ItemType) (x : Item) : Exec Item :=
  if x.type = τ then .ok x else .error .thrown

/-- What the three functions read of an operand. -/
def operand (τ : ItemType) (s : State) : Val → Exec Item
  | .reg n => return itemOf τ (s.regs (valReg n.toNat))
  | .field num reg => do
    let t ← s.getTuple (valReg reg.toNat)
    return itemOf τ (← t.getField num.toNat)
  | .const id => do return itemOf τ (← s.getConst id.toNat)
  | .int x => literal τ (.int x.toInt32)
  | .float x => literal τ (.float x)
  | .host => literal τ (.node s.nodeId)
  | .node id => do
    let x ← literal τ (.node id)
    assert (id ≤ s.maxId)
    return x
  | _ => .error .thrown

/-! ### The match object -/

/-- The loop of `build_match_object`. -/
def buildMatchLoop (types : List FieldType) (s : State) :
    ℕ → List UInt8 → Match → Exec Match
  | 0, _, _ => .error .diverge
  | fuel + 1, pc, m => do
    let field := (← byteGet pc 0).toNat
    let type ← deref types[field]?
    let (x, next) ← getOp type (← valGet pc 1) (pc.drop 2) s
    let m ← m.setItem field x
    if ← iterMatchEnd pc then return m
    buildMatchLoop types s fuel next m

/-- `build_match_object`, of a new match object for a predicate with the types. -/
def buildMatchObject (types : List FieldType) (pc : List UInt8) (s : State) : Exec Match := do
  if ← iterMatchNone pc then return .new types
  buildMatchLoop types s pc.length pc (.new types)

/-! ### The check of a tuple -/

/-- The `switch` of `do_match`. -/
def sameField : FieldType → UInt64 → UInt64 → Exec Bool
  | .item τ, w, w' => pure ((itemOf τ w).eq (itemOf τ w'))
  | _, _, _ => .error .thrown

/-- `do_match`: the result and the code behind the operand. -/
def doMatch (t : RawTuple) (field v : ℕ) (pc : List UInt8) (s : State) :
    Exec (Bool × List UInt8) := do
  match valKind v with
  | some .reg =>
    return (← sameField (← t.getFieldType field) (← t.getField field) (s.regs (valReg v)), pc)
  | some .field =>
    let t₂ ← s.getTuple (← valFieldReg pc)
    let field₂ ← valFieldNum pc
    return (← sameField (← t.getFieldType field) (← t.getField field) (← t₂.getField field₂),
      pc.drop 2)
  | some .nil => .error .thrown
  | some .host => return ((itemOf .node (← t.getField field)).eq (.node s.nodeId), pc)
  | some .int =>
    let i ← pcounterInt pc
    return ((itemOf .int (← t.getField field)).eq (.int i.toInt32), pc.drop 4)
  | some .float =>
    let flt ← pcounterFloat pc
    return ((itemOf .float (← t.getField field)).eq (.float flt), pc.drop 8)
  | _ => .error .thrown

/-- The loop of `do_matches`. -/
def doMatchesLoop (t : RawTuple) (s : State) : ℕ → List UInt8 → Exec Bool
  | 0, _ => .error .diverge
  | fuel + 1, pc => do
    let field := (← byteGet pc 0).toNat
    let (same, next) ← doMatch t field (← valGet pc 1) (pc.drop 2) s
    if ¬same then return false
    if ← iterMatchEnd pc then return true
    doMatchesLoop t s fuel next

/-- `do_matches`. -/
def doMatches (pc : List UInt8) (t : RawTuple) (s : State) : Exec Bool := do
  if ← iterMatchNone pc then return true
  doMatchesLoop t s pc.length pc

/-! ### What the conditions ask for -/

/-- The kinds of operands that `do_match` takes. -/
def Matchable (k : ValKind) : Prop := k ∈ [ValKind.reg, .field, .host, .int, .float]

instance : DecidablePred Matchable := fun k => inferInstanceAs (Decidable (k ∈ _))

/-- The value that a condition asks for, in a state. -/
def asks (types : List FieldType) (s : State) (c : IterMatch) : Option Item :=
  types[c.field.toNat]?.bind fun type =>
    (getOp type (c.val.code.toNat % 64) c.val.bytes s).toOption.map Prod.fst

/-- The value that the last condition on a field asks for. -/
def asked (types : List FieldType) (s : State) : List IterMatch → ℕ → Option Item
  | [], _ => none
  | c :: ms, i => asked types s ms i <|> if c.field.toNat = i then asks types s c else none

/-- The value of a field of a tuple in memory, when it is a scalar. -/
def RawTuple.item? (t : RawTuple) (i : ℕ) : Option Item :=
  match t.types[i]?, t.fields[i]? with
  | some (.item τ), some w => some (itemOf τ w)
  | _, _ => none

/-- A tuple in memory meets a condition, as `do_match` sees it. -/
def Meets (t : RawTuple) (s : State) (c : IterMatch) : Prop :=
  Matchable (kind c.val) ∧
    ∃ x y, asks t.types s c = some x ∧ t.item? c.field.toNat = some y ∧ y.eq x

/-- A word as a value; the lists are read from the memory. -/
def valueOf (cells : ItemType → UInt64 → List Item) : FieldType → UInt64 → Value
  | .item τ, w => .item (itemOf τ w)
  | .list τ, w => .list τ (cells τ w)
  | .string, w => .string w

/-- The values of the fields of a tuple in memory. -/
def RawTuple.values (cells : ItemType → UInt64 → List Item) (t : RawTuple) : List Value :=
  List.zipWith (valueOf cells) t.types t.fields

section

variable {types : List FieldType} {s : State} {ms : List IterMatch} {τ : ItemType} {v : Val}
  {x : Item} {l : List UInt8}

/-! ### One condition -/

theorem operand_field (num reg : UInt8) :
    operand τ s (.field num reg) = (do
      let t ← s.getTuple (valReg reg.toNat)
      return itemOf τ (← t.getField num.toNat)) := rfl

theorem operand_const (id : UInt32) :
    operand τ s (.const id) = (do return itemOf τ (← s.getConst id.toNat)) := rfl

theorem operand_node (id : UInt32) :
    operand τ s (.node id) = (do
      let x ← literal τ (.node id)
      assert (id ≤ s.maxId)
      return x) := rfl

/-- The three functions read the operand, and nothing of the code behind it. -/
theorem getOp_item (τ : ItemType) (v : Val) (l : List UInt8) (s : State) :
    getOp (.item τ) (v.code.toNat % 64) (v.bytes ++ l) s = (·, l) <$> operand τ s v := by
  cases τ <;> simp only [getOp, getOpInt, getOpFloat, getOpNode, valKind_code] <;> cases v <;>
    simp only [kind, Val.bytes, List.nil_append, getNodeVal, pcounterInt_le, pcounterFloat_le,
      ok_bind, drop_le, drop_two, valFieldReg_bytes, valFieldNum_bytes, valReg_code, operand_field,
      operand_const, operand_node, bind_assoc, map_bind, map_pure] <;> rfl

/-- What is read of an operand does not depend on what is behind it. -/
theorem getOp_append (type : FieldType) (v : Val) (l : List UInt8) (s : State) :
    getOp type (v.code.toNat % 64) (v.bytes ++ l) s =
      (fun r => (r.1, l)) <$> getOp type (v.code.toNat % 64) v.bytes s := by
  cases type with
  | item τ =>
    have hnil := getOp_item τ v [] s
    rw [List.append_nil] at hnil
    rw [hnil, getOp_item, Functor.map_map]
  | _ => rfl

/-- A literal is an operand of its own type only. -/
theorem literal_eq_ok {τ : ItemType} {x y : Item} :
    literal τ x = .ok y ↔ x.type = τ ∧ x = y := by
  rw [literal]
  split_ifs with hτ
  · rw [Except.ok.injEq, and_iff_right hτ]
  · exact iff_of_false (fun h => by cases h) fun h => hτ h.1

/-- The value of an operand has the type for which it is read. -/
theorem type_of_operand (h : operand τ s v = .ok x) : x.type = τ := by
  cases v with
  | reg n =>
    cases h
    exact itemOf_type ..
  | field num reg =>
    obtain ⟨t, -, h⟩ := bind_eq_ok.mp h
    obtain ⟨w, -, h⟩ := bind_eq_ok.mp h
    cases h
    exact itemOf_type ..
  | const id =>
    obtain ⟨w, -, h⟩ := bind_eq_ok.mp h
    cases h
    exact itemOf_type ..
  | int | float | host =>
    obtain ⟨hτ, rfl⟩ := literal_eq_ok.mp h
    exact hτ
  | node id =>
    obtain ⟨y, hy, h⟩ := bind_eq_ok.mp h
    obtain ⟨-, -, h⟩ := bind_eq_ok.mp h
    cases h
    obtain ⟨hτ, rfl⟩ := literal_eq_ok.mp hy
    exact hτ
  | _ => cases h

/-- `do_match` compares a field with the value that `build_match_object` reads. -/
theorem doMatch_of_operand {t : RawTuple} {field : ℕ} {w : UInt64}
    (hx : operand τ s v = .ok x) (htype : t.types[field]? = some (.item τ))
    (hw : t.fields[field]? = some w) (l : List UInt8) :
    doMatch t field (v.code.toNat % 64) (v.bytes ++ l) s =
      if Matchable (kind v) then .ok ((itemOf τ w).eq x, l) else .error .thrown := by
  have htype : t.getFieldType field = .ok (.item τ) := deref_eq_ok.mpr htype
  have hw : t.getField field = .ok w := deref_eq_ok.mpr hw
  rw [doMatch, valKind_code]
  cases v with
  | reg n =>
    cases hx
    simp only [kind, htype, hw, ok_bind, valReg_code]
    rfl
  | field num reg =>
    obtain ⟨t₂, ht₂, hx⟩ := bind_eq_ok.mp hx
    obtain ⟨w₂, hw₂, hx⟩ := bind_eq_ok.mp hx
    cases hx
    simp only [kind, Val.bytes, valFieldReg_bytes, valFieldNum_bytes, ok_bind, ht₂, hw₂, htype,
      hw, drop_two]
    rfl
  | int i =>
    obtain ⟨rfl, rfl⟩ := literal_eq_ok.mp hx
    simp only [kind, Val.bytes, pcounterInt_le, ok_bind, hw, drop_le]
    rfl
  | float f =>
    obtain ⟨rfl, rfl⟩ := literal_eq_ok.mp hx
    simp only [kind, Val.bytes, pcounterFloat_le, ok_bind, hw, drop_le]
    rfl
  | host =>
    obtain ⟨rfl, rfl⟩ := literal_eq_ok.mp hx
    simp only [kind, ok_bind, hw]
    rfl
  | const | node => rfl
  | _ => cases hx

/-- A condition asks for something when its field is a scalar and its operand is read. -/
theorem asks_eq_some {c : IterMatch} :
    asks types s c = some x ↔
      ∃ τ, types[c.field.toNat]? = some (.item τ) ∧ operand τ s c.val = .ok x := by
  have hitem : ∀ τ, (getOp (.item τ) (c.val.code.toNat % 64) c.val.bytes s).toOption.map
      Prod.fst = (operand τ s c.val).toOption := fun τ => by
    have h := getOp_item τ c.val [] s
    rw [List.append_nil] at h
    rw [h]
    cases operand τ s c.val <;> rfl
  rw [asks, Option.bind_eq_some_iff]
  constructor
  · rintro ⟨type, htype, h⟩
    cases type with
    | item τ =>
      rw [hitem] at h
      cases hx : operand τ s c.val with
      | ok y =>
        rw [hx] at h
        cases h
        exact ⟨τ, htype, hx⟩
      | error e =>
        rw [hx] at h
        cases h
    | _ => cases h
  · rintro ⟨τ, htype, hx⟩
    exact ⟨.item τ, htype, by rw [hitem, hx]; rfl⟩

/-- One condition in `build_match_object`. -/
theorem asks_of_getOp {c : IterMatch} {type : FieldType} {next : List UInt8}
    (htype : types[c.field.toNat]? = some type)
    (h : getOp type (c.val.code.toNat % 64) (c.val.bytes ++ l) s = .ok (x, next)) :
    asks types s c = some x ∧ next = l := by
  rw [getOp_append] at h
  cases hr : getOp type (c.val.code.toNat % 64) c.val.bytes s with
  | ok r =>
    rw [hr] at h
    cases h
    refine ⟨?_, rfl⟩
    rw [asks, htype, Option.bind_some, hr]
    rfl
  | error e =>
    rw [hr] at h
    cases h

/-! ### The match object -/

/-- Where a list of conditions goes on after its first. -/
theorem conditionAt_matchBytes (c : IterMatch) (ms : List IterMatch) (l : List UInt8) :
    ∃ next last, ConditionAt (matchBytes (c :: ms) ++ l) c next last ∧
      (last = true ∧ ms = [] ∨ last = false ∧ ms ≠ [] ∧ next = matchBytes ms ++ l) := by
  rcases eq_or_ne ms [] with rfl | hms
  · exact ⟨l, true, conditionAt_last c l, .inl ⟨rfl, rfl⟩⟩
  · exact ⟨_, false, conditionAt_cons c hms l, .inr ⟨rfl, hms, rfl⟩⟩

/-- The field that is set asks for the value, and the others are as they were. -/
theorem setItem_getElem? {m m' : Match} {field : ℕ} (h : m.setItem field x = .ok m') (i : ℕ) :
    m'.fields[i]? = if field = i then some (.exact x) else m.fields[i]? := by
  unfold Match.setItem at h
  split_ifs at h with hlt
  cases h
  split_ifs with hi
  · subst hi
    exact List.getElem?_set_self hlt
  · exact List.getElem?_set_ne hi

/-- Setting a field keeps the number of fields. -/
theorem length_setItem {m m' : Match} {field : ℕ} (h : m.setItem field x = .ok m') :
    m'.fields.length = m.fields.length := by
  unfold Match.setItem at h
  split_ifs at h
  cases h
  exact List.length_set

/-- `build_match_object` reads the operands of all conditions, and the last condition on a field
says what the match object asks of it. -/
structure Built (types : List FieldType) (s : State) (ms : List IterMatch) (m m' : Match) :
    Prop where
  asks : ∀ c ∈ ms, ∃ x, asks types s c = some x
  length : m'.fields.length = m.fields.length
  fields : ∀ i, m'.fields[i]? = ((asked types s ms i).map .exact <|> m.fields[i]?)

/-- The first condition is set before the others. -/
theorem Built.cons {c : IterMatch} {m m₁ m' : Match} (hx : Bytecode.asks types s c = some x)
    (hset : m.setItem c.field.toNat x = .ok m₁) (h : Built types s ms m₁ m') :
    Built types s (c :: ms) m m' where
  asks := List.forall_mem_cons.mpr ⟨⟨x, hx⟩, h.asks⟩
  length := h.length.trans (length_setItem hset)
  fields i := by
    rw [h.fields, setItem_getElem? hset, asked, hx]
    cases asked types s ms i with
    | some y => rfl
    | none => split_ifs <;> rfl

/-- Without conditions there is nothing to set. -/
theorem Built.nil (m : Match) : Built types s [] m m where
  asks := fun _ h => by cases h
  length := rfl
  fields _ := rfl

/-- The loop sets what the conditions ask for, one after another. -/
theorem built_of_buildMatchLoop {fuel : ℕ} {m m' : Match} (hne : ms ≠ [])
    (h : buildMatchLoop types s fuel (matchBytes ms ++ l) m = .ok m') :
    Built types s ms m m' := by
  induction ms generalizing fuel m with
  | nil => exact absurd rfl hne
  | cons c ms ih =>
    cases fuel with
    | zero => cases h
    | succ fuel =>
      obtain ⟨next, last, hc, hlast⟩ := conditionAt_matchBytes c ms l
      rw [buildMatchLoop] at h
      simp only [hc.field, hc.val, hc.drop, hc.matchEnd, ok_bind] at h
      obtain ⟨type, htype, hread⟩ := bind_eq_ok.mp h
      obtain ⟨⟨x, rest⟩, hx, hwrite⟩ := bind_eq_ok.mp hread
      obtain ⟨m₁, hset, hrest⟩ := bind_eq_ok.mp hwrite
      obtain ⟨hasks, rfl⟩ := asks_of_getOp (deref_eq_ok.mp htype) hx
      rcases hlast with ⟨rfl, rfl⟩ | ⟨rfl, hms, rfl⟩
      · cases hrest
        exact (Built.nil _).cons hasks hset
      · exact (ih hms hrest).cons hasks hset

/-- A match object is built from the conditions alone. -/
theorem built_of_buildMatchObject {m : Match}
    (h : buildMatchObject types (matchBytes ms ++ l) s = .ok m) :
    Built types s ms (.new types) m := by
  rw [buildMatchObject, iterMatchNone_bytes, ok_bind] at h
  cases ms with
  | nil =>
    cases h
    exact Built.nil _
  | cons c ms => exact built_of_buildMatchLoop (List.cons_ne_nil c ms) h

/-- A relation between lists, place by place. -/
private theorem forall₂_iff_getElem? {α β : Type} {R : α → β → Prop} {as : List α}
    {bs : List β} :
    List.Forall₂ R as bs ↔
      as.length = bs.length ∧ ∀ (i : ℕ) a b, as[i]? = some a → bs[i]? = some b → R a b := by
  rw [List.forall₂_iff_get]
  refine and_congr_right fun _ => ⟨fun h i a b ha hb => ?_, fun h i hi hi' => ?_⟩
  · obtain ⟨hi, rfl⟩ := List.getElem?_eq_some_iff.mp ha
    obtain ⟨hi', rfl⟩ := List.getElem?_eq_some_iff.mp hb
    exact h i hi hi'
  · exact h i _ _ (List.getElem?_eq_getElem hi) (List.getElem?_eq_getElem hi')

/-- A tuple has as many values as types. -/
theorem length_values (cells : ItemType → UInt64 → List Item) (t : RawTuple) :
    (t.values cells).length = t.types.length := by
  rw [RawTuple.values, List.length_zipWith, t.length_eq, Nat.min_self]

/-- A scalar field of a tuple in memory and its value. -/
theorem item?_eq_some {t : RawTuple} {i : ℕ} {y : Item}
    (cells : ItemType → UInt64 → List Item) :
    t.item? i = some y ↔ (t.values cells)[i]? = some (.item y) := by
  rw [RawTuple.item?, RawTuple.values, List.getElem?_zipWith]
  cases t.types[i]? with
  | none => simp
  | some type =>
    cases t.fields[i]? with
    | none => cases type <;> simp
    | some w => cases type <;> simp [valueOf]

/-- A tuple satisfies the match object when it has the values that are asked for. -/
theorem Built.accepts_iff {t : RawTuple} {m : Match} (h : Built t.types s ms (.new t.types) m)
    (cells : ItemType → UInt64 → List Item) :
    m.accepts (t.values cells) ↔
      ∀ i x, asked t.types s ms i = some x → ∃ y, t.item? i = some y ∧ y.eq x := by
  have hlen : m.fields.length = (t.values cells).length := by
    rw [h.length, Match.new, List.length_map, length_values]
  rw [Match.accepts, forall₂_iff_getElem?, and_iff_right hlen]
  constructor
  · intro hall i x hx
    have hm : m.fields[i]? = some (.exact x) := by
      rw [h.fields, hx]
      rfl
    have hi : i < (t.values cells).length := hlen ▸ (List.getElem?_eq_some_iff.mp hm).1
    obtain ⟨v, hv⟩ : ∃ v, (t.values cells)[i]? = some v := ⟨_, List.getElem?_eq_getElem hi⟩
    have hacc := hall i _ v hm hv
    cases v with
    | item y => exact ⟨y, (item?_eq_some cells).mpr hv, hacc⟩
    | _ => cases hacc
  · intro hall i f v hf hv
    rw [h.fields] at hf
    cases hx : asked t.types s ms i with
    | some x =>
      obtain ⟨y, hy, hyx⟩ := hall i x hx
      rw [hx] at hf
      cases hf
      rw [item?_eq_some cells, hv] at hy
      cases hy
      exact hyx
    | none =>
      rw [hx] at hf
      obtain ⟨type, -, rfl⟩ := List.mem_map.mp (List.mem_of_getElem? hf)
      rfl

/-! ### The check of a tuple -/

/-- One condition in `do_matches`. -/
theorem doMatch_iff {t : RawTuple} {c : IterMatch} (hx : asks t.types s c = some x)
    (l : List UInt8) :
    ∃ y, t.item? c.field.toNat = some y ∧
      doMatch t c.field.toNat (c.val.code.toNat % 64) (c.val.bytes ++ l) s =
        if Matchable (kind c.val) then .ok (y.eq x, l) else .error .thrown := by
  obtain ⟨τ, htype, hread⟩ := asks_eq_some.mp hx
  have hlt : c.field.toNat < t.fields.length := by
    rw [t.length_eq]
    exact (List.getElem?_eq_some_iff.mp htype).1
  have hw : t.fields[c.field.toNat]? = some t.fields[c.field.toNat] :=
    List.getElem?_eq_getElem hlt
  refine ⟨_, ?_, doMatch_of_operand hread htype hw l⟩
  rw [RawTuple.item?, htype, hw]

/-- The loop accepts a tuple that meets all conditions. -/
theorem doMatchesLoop_eq_true {t : RawTuple} {fuel : ℕ} (hne : ms ≠ [])
    (hfuel : ms.length ≤ fuel) (hasks : ∀ c ∈ ms, ∃ x, asks t.types s c = some x) :
    doMatchesLoop t s fuel (matchBytes ms ++ l) = .ok true ↔ ∀ c ∈ ms, Meets t s c := by
  induction ms generalizing fuel with
  | nil => exact absurd rfl hne
  | cons c ms ih =>
    obtain ⟨fuel, rfl⟩ : ∃ n, fuel = n + 1 := ⟨fuel - 1, by simp at hfuel; omega⟩
    obtain ⟨next, last, hc, hlast⟩ := conditionAt_matchBytes c ms l
    obtain ⟨⟨x, hx⟩, hasks⟩ := List.forall_mem_cons.mp hasks
    obtain ⟨y, hy, hmatch⟩ := doMatch_iff hx next
    have hmeets : Meets t s c ↔ Matchable (kind c.val) ∧ y.eq x = true := by
      simp only [Meets, hx, hy, Option.some.injEq, exists_and_left, exists_eq_left']
    rw [List.forall_mem_cons, hmeets, doMatchesLoop]
    simp only [hc.field, hc.val, hc.drop, hc.matchEnd, ok_bind, hmatch]
    by_cases hk : Matchable (kind c.val)
    · cases hyx : y.eq x with
      | false => simp [hk]
      | true =>
        rcases hlast with ⟨rfl, rfl⟩ | ⟨rfl, hms, rfl⟩
        · simp [hk]
        · simpa [hk] using ih hms (Nat.le_of_succ_le_succ hfuel) hasks
    · simp [hk]

/-- `do_matches` accepts a tuple that meets all conditions. -/
theorem doMatches_eq_true {t : RawTuple} (hasks : ∀ c ∈ ms, ∃ x, asks t.types s c = some x) :
    doMatches (matchBytes ms ++ l) t s = .ok true ↔ ∀ c ∈ ms, Meets t s c := by
  rw [doMatches, iterMatchNone_bytes, ok_bind]
  cases ms with
  | nil => exact iff_of_true rfl fun c hc => by cases hc
  | cons c ms =>
    refine doMatchesLoop_eq_true (List.cons_ne_nil c ms) ?_ hasks
    rw [List.length_append]
    exact Nat.le_add_right_of_le (length_le_matchBytes _)

/-! ### The two readers -/

/-- What is asked of a field is asked by a condition on it. -/
theorem asked_eq_some {i : ℕ} (h : asked types s ms i = some x) :
    ∃ c ∈ ms, c.field.toNat = i ∧ asks types s c = some x := by
  induction ms with
  | nil => cases h
  | cons c ms ih =>
    rw [asked] at h
    cases hms : asked types s ms i with
    | some y =>
      rw [hms] at h
      cases h
      obtain ⟨c', hc', hi⟩ := ih hms
      exact ⟨c', List.mem_cons_of_mem c hc', hi⟩
    | none =>
      rw [hms] at h
      by_cases hi : c.field.toNat = i
      · rw [if_pos hi] at h
        exact ⟨c, List.mem_cons_self, hi, h⟩
      · rw [if_neg hi] at h
        cases h

/-- A field with conditions is asked for something. -/
theorem asked_of_mem (hasks : ∀ c ∈ ms, ∃ x, asks types s c = some x) {c : IterMatch}
    (hc : c ∈ ms) : ∃ x, asked types s ms c.field.toNat = some x := by
  induction ms with
  | nil => cases hc
  | cons c' ms ih =>
    obtain ⟨⟨x, hx⟩, hasks⟩ := List.forall_mem_cons.mp hasks
    rw [asked]
    rcases List.mem_cons.mp hc with rfl | hc
    · rw [if_pos rfl, hx]
      cases asked types s ms c.field.toNat with
      | some y => exact ⟨y, rfl⟩
      | none => exact ⟨x, rfl⟩
    · obtain ⟨y, hy⟩ := ih hasks hc
      exact ⟨y, by rw [hy]; rfl⟩

/-- What is asked of a field has the field's type. -/
theorem type_of_asked {i : ℕ} (h : asked types s ms i = some x) :
    types[i]? = some (.item x.type) := by
  obtain ⟨c, -, rfl, hc⟩ := asked_eq_some h
  obtain ⟨τ, hτ, hread⟩ := asks_eq_some.mp hc
  rw [hτ, type_of_operand hread]

/-- A tuple that `do_matches` accepts satisfies the match object. -/
theorem accepts_of_meets {t : RawTuple} {m : Match} (h : Built t.types s ms (.new t.types) m)
    (cells : ItemType → UInt64 → List Item) (hmeets : ∀ c ∈ ms, Meets t s c) :
    m.accepts (t.values cells) := by
  rw [h.accepts_iff]
  intro i x hx
  obtain ⟨c, hc, rfl, hcx⟩ := asked_eq_some hx
  obtain ⟨-, x', y, hx', hy, hyx⟩ := hmeets c hc
  cases hcx.symm.trans hx'
  exact ⟨y, hy, hyx⟩

/-- A tuple that has what is asked for. -/
def askedTuple (types : List FieldType) (s : State) (ms : List IterMatch) : RawTuple where
  types := types
  fields := (List.range types.length).map fun i => (asked types s ms i).elim 0 wordOf
  length_eq := by rw [List.length_map, List.length_range]

/-- The tuple made of what is asked has it. -/
theorem item?_askedTuple {i : ℕ} (h : asked types s ms i = some x) :
    (askedTuple types s ms).item? i = some x := by
  have htype := type_of_asked h
  have hlt := (List.getElem?_eq_some_iff.mp htype).1
  have hw : (askedTuple types s ms).fields[i]? = some (wordOf x) := by
    rw [askedTuple, List.getElem?_map, List.getElem?_range hlt, Option.map_some, h,
      Option.elim_some]
  rw [RawTuple.item?, hw]
  simp only [askedTuple, htype, itemOf_wordOf]

/-- The match object and `do_matches` accept the same tuples when no tuple satisfies the match
object, or when `do_match` takes the operands of all conditions and the conditions on one field ask
for one value. -/
theorem matches_agree_iff {rest : List UInt8} {m : Match}
    (h : buildMatchObject types (matchBytes ms ++ rest) s = .ok m) :
    (∀ t : RawTuple, t.types = types → ∀ cells,
      (m.accepts (t.values cells) ↔ doMatches (matchBytes ms ++ rest) t s = .ok true)) ↔
    (∃ i x, asked types s ms i = some x ∧ ¬x.Regular) ∨
      ∀ c ∈ ms, Matchable (kind c.val) ∧ ∀ x y, asks types s c = some x →
        asked types s ms c.field.toNat = some y → y.eq x := by
  have hbuilt := built_of_buildMatchObject h
  constructor
  · intro hagree
    refine or_iff_not_imp_left.mpr fun hregular c hc => ?_
    have hacc : m.accepts ((askedTuple types s ms).values fun _ _ => []) := by
      refine (hbuilt.accepts_iff (t := askedTuple types s ms) _).mpr fun i x hx => ?_
      refine ⟨x, item?_askedTuple hx, ?_⟩
      by_contra hx'
      exact hregular ⟨i, x, hx, hx'⟩
    have hdo := (hagree (askedTuple types s ms) rfl _).mp hacc
    obtain ⟨hk, x', y', hx', hy', hyx⟩ :=
      (doMatches_eq_true (t := askedTuple types s ms) hbuilt.asks).mp hdo c hc
    refine ⟨hk, fun x y hx hy => ?_⟩
    cases hx.symm.trans hx'
    cases (item?_askedTuple hy).symm.trans hy'
    exact hyx
  · rintro hcond t rfl cells
    rw [doMatches_eq_true hbuilt.asks]
    refine ⟨fun hacc => ?_, accepts_of_meets hbuilt cells⟩
    rw [hbuilt.accepts_iff] at hacc
    rcases hcond with ⟨i, x, hx, hregular⟩ | hcond
    · obtain ⟨y, -, hyx⟩ := hacc i x hx
      exact absurd (Item.regular_left (Item.eq_symm hyx)) hregular
    · intro c hc
      obtain ⟨x, hx⟩ := hbuilt.asks c hc
      obtain ⟨y, hy⟩ := asked_of_mem hbuilt.asks hc
      obtain ⟨hk, hsame⟩ := hcond c hc
      obtain ⟨z, hz, hzy⟩ := hacc _ y hy
      exact ⟨hk, x, z, hx, hz, Item.eq_trans hzy (hsame x y hx hy)⟩

/-- A register with the number nine. -/
private def nineState : State := { (default : State) with regs := fun r => if r.val = 2 then 9 else 0 }

/-- The conditions that the first field is seven, which is asked twice, and that the second is what
a register has. -/
private def sevenNineMatch : List IterMatch := [⟨0, .int 7⟩, ⟨1, .reg 2⟩, ⟨0, .int 7⟩]

theorem matches_agree_seven_nine :
    buildMatchObject [.item .int, .item .int] (matchBytes sevenNineMatch ++ []) nineState =
        .ok ⟨[.exact (.int 7), .exact (.int 9)], true, by simp⟩ ∧
      ∀ t : RawTuple, t.types = [.item .int, .item .int] → ∀ cells,
        ((⟨[.exact (.int 7), .exact (.int 9)], true, by simp⟩ : Match).accepts (t.values cells) ↔
          doMatches (matchBytes sevenNineMatch ++ []) t nineState = .ok true) := by
  refine ⟨rfl, (matches_agree_iff rfl).mpr (.inr ?_)⟩
  intro c hc
  simp only [sevenNineMatch, List.mem_cons, List.not_mem_nil, or_false] at hc
  rcases hc with rfl | rfl | rfl
  all_goals refine ⟨by decide, ?_⟩
  all_goals intro x y hx hy
  all_goals cases hx
  all_goals cases hy
  all_goals rfl

/-- The match object takes the node constant, on which `do_matches` throws. -/
theorem not_matches_agree :
    ∃ (types : List FieldType) (ms : List IterMatch) (s : State) (m : Match) (t : RawTuple),
      buildMatchObject types (matchBytes ms) s = .ok m ∧ t.types = types ∧
        ¬(m.accepts (t.values fun _ _ => []) ↔ doMatches (matchBytes ms) t s = .ok true) :=
  ⟨[.item .node], [⟨0, .node 0⟩], default, ⟨[.exact (.node 0)], true, by simp⟩,
    ⟨[.item .node], [0], rfl⟩, rfl, rfl, fun h => by
      have hdo := h.mp (.cons rfl .nil)
      cases hdo⟩

end

end Meld.Vm.Bytecode
