import Meld.Db.TupleMatch
import Meld.Vm.Program
import Meld.Vm.Tuple

/-!
# Aggregate configurations

An `agg_configuration` keeps the tuples of one group in a tuple trie and remembers the aggregate
that it emitted last. `generate` computes the aggregate of the tuples that are there, and emits a
retraction of the last one and the new one when the two are different.

The arithmetic of floats is a parameter. The integers of tuples are added modulo `2 ^ 32`.
-/

namespace Meld.Db

open Meld.Lib Meld.Vm

/-- What the aggregates do with two `float_val`s. -/
structure FloatOps where
  lt : UInt64 → UInt64 → Bool
  add : UInt64 → UInt64 → UInt64

/-- A `simple_tuple` that `generate` emits. -/
structure Emission where
  tpl : List Value
  count : ℤ
  deriving DecidableEq, Repr

/-- `simple_tuple::create_new`. -/
def createNew (tpl : List Value) : Emission := ⟨tpl, 1⟩

/-- `simple_tuple::remove_new`. -/
def removeNew (tpl : List Value) : Emission := ⟨tpl, -1⟩

/-- `agg_configuration`. -/
structure AggConfiguration where
  changed : Bool
  corresponds : Option (List Value)
  vals : TupleTrie

namespace AggConfiguration

/-- The constructor. -/
def new : AggConfiguration where
  changed := false
  corresponds := none
  vals := Trie.new

/-- `add_to_set`. -/
def addToSet (conf : AggConfiguration) (tpl : List Value) (many : ℤ) : Exec AggConfiguration := do
  assert (many ≠ 0)
  let startSize := conf.vals.numberOfReferences
  if 0 < many then do
    let (vals, _) ← conf.vals.insertTuple tpl many
    assert (vals.numberOfReferences = startSize + many)
    pure { conf with changed := true, vals := vals }
  else do
    let (vals, deleter) ← conf.vals.deleteTuple tpl (wrap16 (-many))
    let vals ← vals.commit deleter
    pure { conf with changed := true, vals := vals }

/-- `empty`. -/
def isEmpty (conf : AggConfiguration) : Bool := conf.vals.numberOfReferences == 0

/-- The `simple_tuple`s from `begin` to `end`. -/
def tuples (vals : TupleTrie) : Exec (List TupleTrieLeaf) := do
  let ls ← vals.allLeaves vals.leaves.arena.next vals.firstLeaf
  pure (ls.map vals.leaves.payload)

/-! ### The aggregates -/

section

variable {V : Type} (get : List Value → Exec V)

/-- The loop that keeps the tuple whose field `beats` all before it. -/
def bestFrom (beats : V → V → Bool) : V → List Value → List TupleTrieLeaf → Exec (List Value)
  | _, best, [] => copyTuple best
  | val, best, s :: rest => do
    let other ← get s.tpl
    if beats other val then bestFrom beats other s.tpl rest
    else bestFrom beats val best rest

/-- What the maxima and minima share. -/
def generateBest (beats : V → V → Bool) : List TupleTrieLeaf → Exec (List Value)
  | [] => throw .dangling
  | s :: rest => do
    let val ← get s.tpl
    bestFrom get beats val s.tpl rest

/-- The loop that adds the field of a tuple once for each copy. -/
def addCopies (add : V → V → V) (tpl : List Value) : ℕ → V → Exec V
  | 0, sum => pure sum
  | n + 1, sum => do
    let v ← get tpl
    addCopies add tpl n (add sum v)

/-- The loop over the tuples. -/
def sumFrom (add : V → V → V) : V → List TupleTrieLeaf → Exec V
  | sum, [] => pure sum
  | sum, s :: rest => do
    let sum ← addCopies get add s.tpl s.count.toNat sum
    sumFrom add sum rest

/-- What the sums share: a copy of the first tuple with the sum in the field. -/
def generateSum (add : V → V → V) (zero : V) (put : V → Value) (field : ℕ) :
    List TupleTrieLeaf → Exec (List Value)
  | [] => throw .dangling
  | s :: rest => do
    let ret ← copyTuple s.tpl
    let sum ← sumFrom get add zero (s :: rest)
    pure (ret.set field (put sum))

end

/-- `generate_first`. -/
def generateFirst : List TupleTrieLeaf → Exec (List Value)
  | [] => throw .dangling
  | s :: _ => copyTuple s.tpl

/-- `generate_max_int`. -/
def generateMaxInt (field : ℕ) : List TupleTrieLeaf → Exec (List Value) :=
  generateBest (getInt · field) fun other val => decide (val < other)

/-- `generate_min_int`. -/
def generateMinInt (field : ℕ) : List TupleTrieLeaf → Exec (List Value) :=
  generateBest (getInt · field) fun other val => decide (val > other)

/-- `generate_sum_int`. -/
def generateSumInt (field : ℕ) : List TupleTrieLeaf → Exec (List Value) :=
  generateSum (getInt · field) (· + ·) 0 (fun v => .item (.int v)) field

section

variable (F : FloatOps)

/-- `generate_max_float`. -/
def generateMaxFloat (field : ℕ) : List TupleTrieLeaf → Exec (List Value) :=
  generateBest (getFloat · field) fun other val => F.lt val other

/-- `generate_min_float`. -/
def generateMinFloat (field : ℕ) : List TupleTrieLeaf → Exec (List Value) :=
  generateBest (getFloat · field) fun other val => F.lt other val

/-- `generate_sum_float`. -/
def generateSumFloat (field : ℕ) : List TupleTrieLeaf → Exec (List Value) :=
  generateSum (getFloat · field) F.add 0 (fun v => .item (.float v)) field

/-- The loop that puts the list of a tuple into the array once for each copy. -/
def floatLists (field len : ℕ) : List TupleTrieLeaf → Exec (List (List Item))
  | [] => pure []
  | s :: rest => do
    let ls ← getFloatList s.tpl field
    assert (0 < s.count.toNat → ls.length = len)
    let lists ← floatLists field len rest
    pure (List.replicate s.count.toNat ls ++ lists)

/-- The head of a list of floats. -/
def floatHead : List Item → Exec UInt64
  | .float v :: _ => pure v
  | _ => throw .dangling

/-- The loop that adds the heads of the lists and goes on to their tails. -/
def sumColumns : ℕ → List (List Item) → Exec (List Item)
  | 0, lists => do
    assert (∀ ls ∈ lists, ls = [])
    pure []
  | n + 1, lists => do
    let heads ← lists.mapM floatHead
    let rest ← sumColumns n (lists.map List.tail)
    pure (.float (heads.foldl F.add 0) :: rest)

/-- `generate_sum_list_float`; `numLists` is the size of the trie. -/
def generateSumListFloat (numLists : ℤ) (field : ℕ) : List TupleTrieLeaf → Exec (List Value)
  | [] => throw .dangling
  | s :: rest => do
    let first ← getFloatList s.tpl field
    -- `copy_except` leaves the field null
    let ret ← copyTuple (s.tpl.set field (.list .float []))
    let lists ← floatLists field first.length (s :: rest)
    assert ((lists.length : ℤ) ≤ numLists)
    if (lists.length : ℤ) < numLists then throw .dangling
    else do
      let sums ← sumColumns F first.length lists
      pure (ret.set field (.list .float sums))

/-- `do_generate`. -/
def doGenerate (typ : AggregateType) (field : ℕ) (conf : AggConfiguration) :
    Exec (Option (List Value)) :=
  if conf.isEmpty then pure none
  else do
    let ts ← tuples conf.vals
    let generated ←
      match typ with
      | .first => generateFirst ts
      | .maxInt => generateMaxInt field ts
      | .minInt => generateMinInt field ts
      | .sumInt => generateSumInt field ts
      | .sumFloat => generateSumFloat F field ts
      | .maxFloat => generateMaxFloat F field ts
      | .minFloat => generateMinFloat F field ts
      | .sumListFloat => generateSumListFloat F conf.vals.numberOfReferences field ts
    pure (some generated)

/-- The generator that `do_generate` calls for an aggregate. -/
def generateOf (typ : AggregateType) (field : ℕ) (numberOfReferences : ℤ)
    (ts : List TupleTrieLeaf) : Exec (List Value) :=
  match typ with
  | .first => generateFirst ts
  | .maxInt => generateMaxInt field ts
  | .minInt => generateMinInt field ts
  | .sumInt => generateSumInt field ts
  | .sumFloat => generateSumFloat F field ts
  | .maxFloat => generateMaxFloat F field ts
  | .minFloat => generateMinFloat F field ts
  | .sumListFloat => generateSumListFloat F numberOfReferences field ts

/-- What `do_generate` returns when there are tuples and the generator returns. -/
theorem doGenerate_of_generateOf {typ : AggregateType} {field : ℕ} {conf : AggConfiguration}
    {ts : List TupleTrieLeaf} {tpl : List Value} (hempty : conf.isEmpty = false)
    (hts : tuples conf.vals = .ok ts)
    (hgen : generateOf F typ field conf.vals.numberOfReferences ts = .ok tpl) :
    doGenerate F typ field conf = .ok (some tpl) := by
  rw [doGenerate, hempty, hts]
  simp only [Bool.false_eq_true, if_false, ok_bind]
  cases typ <;> exact congrArg (· >>= fun g => pure (some g)) hgen

/-- `generate`, on the list `cont` of what was emitted before. -/
def generate (typ : AggregateType) (field : ℕ) (conf : AggConfiguration) (cont : List Emission) :
    Exec (AggConfiguration × List Emission) := do
  let generated ← doGenerate F typ field conf
  let cont ←
    match conf.corresponds, generated with
    | none, none => pure cont
    | none, some g => pure (cont ++ [createNew g])
    | some c, none => pure (cont ++ [removeNew c])
    | some c, some g => do
      let same ← tupleEqual c g
      if same then pure cont else pure (cont ++ [removeNew c, createNew g])
  pure ({ conf with changed := false, corresponds := generated }, cont)

end

end AggConfiguration

end Meld.Db
