import Meld.Linker.Printing

/-!
# Programs for the linker

What the linker uses of a program that was read from a byte-code file: its predicates with their
descriptors and byte-code, its rules, functions, constants and external functions, its nodes, and
the tables of what it imports and exports. Texts are the bytes of the file.
-/

namespace Meld.Linker

open Lib Lib.Bytes Vm Vm.Bytecode Traversal

/-- Byte-code that fits its format. -/
structure Code where
  tree : Tree
  tabled : tree.Tabled
  fits : ∀ h ∈ tree.heads, h.Fits
  size : tree.bytes.length < 2 ^ 32

namespace Code

variable (c : Code)

/-- The instructions, in the order in which they stand in memory. -/
def heads : List Head := c.tree.heads

/-- The byte-code in memory. -/
def bytes : List UInt8 := c.tree.bytes

/-- How often printing comes to the instruction with the number: once outside of the blocks of
`SELECT_INSTR`s, and in a block once for each time that it comes to the `SELECT_INSTR` and each node
that has the block. -/
def times (k : ℕ) : ℕ := (c.tree.route 0).count k

/-- The tree of the code is laid out as its heads say. -/
theorem lays : Lays c.heads := ⟨c.fits, c.size⟩

/-- Every instruction takes a byte. -/
theorem length_heads_le : c.heads.length ≤ c.bytes.length := by
  have hle : ∀ l : List Head, l.length ≤ Traversal.size l := fun l => by
    induction l with
    | nil => exact le_rfl
    | cons h l ih =>
      have := bytes_pos h
      rw [size_cons, List.length_cons]
      omega
  exact hle _

end Code

/-- The bytes of a text. -/
abbrev Text := List UInt8

/-- The bytes up to the first zero, as a constructor of `string` takes them from a buffer. -/
def cString (s : List UInt8) : Text := s.takeWhile (· ≠ 0)

/-- `import`. -/
structure Import where
  imp : Text
  as : Text
  file : Text
  deriving DecidableEq, Repr

/-- A predicate with its descriptor and its byte-code. -/
structure PredicateDef where
  descriptor : List UInt8
  code : Code
  length_descriptor : descriptor.length = 104
  codeSize : ofLe (descriptor.take 4) = code.bytes.length

namespace PredicateDef

/-- The type of a field: `FIELD_INT`, `FIELD_FLOAT`, `FIELD_NODE`, the lists of these, or
`FIELD_STRING`. -/
def fieldType (b : UInt8) : FieldType :=
  match b.toNat with
  | 0 => .item .int
  | 1 => .item .float
  | 2 => .item .node
  | 3 => .list .int
  | 4 => .list .float
  | 5 => .list .node
  | _ => .string

variable (p : PredicateDef)

/-- `get_name`. -/
def name : Text := cString (p.descriptor.drop 40)

/-- `num_fields`. -/
def numFields : ℕ := (p.descriptor.getD 7 0).toNat

def types : List FieldType := ((p.descriptor.drop 8).take p.numFields).map fieldType

end PredicateDef

/-- A rule with its byte-code. -/
structure RuleDef where
  text : Text
  code : Code
  isPersistent : Bool
  /-- the ids of the predicates of the body -/
  predicates : List UInt8
  text_ne : text ≠ []
  length_text : text.length < 2 ^ 32
  numPredicates : predicates.length < 10

namespace RuleDef

/-- `get_string`. -/
def string (r : RuleDef) : Text := cString r.text

end RuleDef

/-- An external function: its id, its name, its file, its address, and the types of its result and
of its arguments. -/
structure Extern where
  id : UInt32
  name : List UInt8
  file : List UInt8
  address : UInt64
  types : List UInt8
  length_name : name.length = 256
  length_file : file.length = 1024
  /-- there is a type for the result -/
  types_ne : types ≠ []
  length_types : types.length < 2 ^ 32

/-- The global information: the initial priority, or something that needs no more bytes. -/
inductive GlobalInfo
  | float (ascending : UInt8) (priority : UInt64)
  | int (ascending : UInt8) (priority : UInt32)
  | other (info : UInt8) (h : info ≠ 1 ∧ info ≠ 2)

/-- `program`, as it was read from a file. -/
structure Program where
  /-- the name of the file -/
  name : Text
  /-- the minor version; the major version is zero -/
  version : ℕ
  predicates : List PredicateDef
  nodes : List (UInt32 × UInt32)
  imports : List Import
  exports : List Text
  numArgs : UInt8
  rules : List RuleDef
  strings : List Text
  constTypes : List UInt8
  constCode : Code
  functions : List Code
  /-- below the version 0.7 their number is never set: what the linker then takes for them -/
  externs : List Extern
  globalInfo : GlobalInfo
  version_mem : 5 ≤ version ∧ version < 10
  numPredicates : predicates.length < 256
  numNodes : nodes.length < 2 ^ 32
  /-- the tables of imports and exports come with the version 0.9 -/
  imports_nil : version < 9 → imports = [] ∧ exports = []
  /-- functions come with the version 0.6 -/
  functions_nil : version < 6 → functions = []
  /-- the counts and the lengths fit in their fields -/
  numImports : imports.length < 2 ^ 32
  importTexts : ∀ i ∈ imports,
    i.imp.length < 2 ^ 32 ∧ i.as.length < 2 ^ 32 ∧ i.file.length < 2 ^ 32
  numExports : exports.length < 2 ^ 32
  exportTexts : ∀ e ∈ exports, e.length < 2 ^ 32
  numRules : rules.length < 2 ^ 32
  rulePredicates : ∀ r ∈ rules, ∀ p ∈ r.predicates, p.toNat < predicates.length
  numStrings : strings.length < 2 ^ 31
  stringTexts : ∀ s ∈ strings, s.length < 2 ^ 31
  numConsts : constTypes.length < 2 ^ 32

namespace Program

variable (prog : Program)

/-- `get_predicate_by_name`. -/
def getPredicateByName (name : Text) : Option ℕ := prog.predicates.findIdx? (·.name == name)

/-- The names of the predicates that the program imports. -/
def imported (name : Text) : Bool := prog.imports.any (·.as == name)

/-- The import of the name, the last one in the table. -/
def importOf (name : Text) : Option Import := (prog.imports.filter (·.as == name)).getLast?

end Program

/-! ### Samples -/

/-- No code. -/
def noCode : Code := ⟨.done, trivial, List.forall_mem_nil _, by decide⟩

/-- A single instruction. -/
def sampleCode (i : Instr) (hfits : (Head.instr i).Fits) (hsize : i.bytes.length < 2 ^ 32) : Code where
  tree := .instr i .done
  tabled := trivial
  fits := List.forall_mem_singleton.mpr hfits
  size := by
    have hbytes : (Tree.instr i .done).bytes = i.bytes := List.append_nil _
    rwa [hbytes]

/-- The name of the sample fits its field. -/
theorem length_sampleName : ([0x70] : Text).length ≤ 32 := by
  decide

/-- The sample imports one predicate. -/
theorem length_sampleImports : [(⟨[0x70], [0x70], [0x62]⟩ : Import)].length < 2 ^ 32 := by
  decide

/-- The texts of that import fit their fields. -/
theorem length_sampleImportTexts : ∀ i ∈ [(⟨[0x70], [0x70], [0x62]⟩ : Import)],
    i.imp.length < 2 ^ 32 ∧ i.as.length < 2 ^ 32 ∧ i.file.length < 2 ^ 32 := by
  decide

/-- A predicate without fields and without code. -/
def samplePredicate (name : Text) (hname : name.length ≤ 32) : PredicateDef where
  descriptor := List.replicate 40 0 ++ (name ++ List.replicate (32 - name.length) 0) ++
    List.replicate 32 0
  code := noCode
  length_descriptor := by
    simp only [List.length_append, List.length_replicate]
    omega
  codeSize := by
    rw [List.append_assoc, List.take_append_of_le_length (by rw [List.length_replicate]; omega)]
    rfl

/-- Eight predicates, as every program starts with, and one more. -/
def samplePredicates (name : Text) (hname : name.length ≤ 32) : List PredicateDef :=
  List.replicate 8 (samplePredicate [0x5f] (by decide)) ++ [samplePredicate name hname]

/-- A rule for the last predicate. -/
def sampleRule (code : Code) : RuleDef where
  text := [0x72]
  code := code
  isPersistent := false
  predicates := [8]
  text_ne := by decide
  length_text := by decide
  numPredicates := by decide

/-- A program with one predicate of its own, which it exports, and with two rules. -/
def sampleProgram (file name : Text) (hname : name.length ≤ 32) (code : Code) : Program where
  name := file
  version := 9
  predicates := samplePredicates name hname
  nodes := []
  imports := []
  exports := [name]
  numArgs := 0
  rules := [sampleRule noCode, sampleRule code]
  strings := []
  constTypes := []
  constCode := noCode
  functions := []
  externs := []
  globalInfo := .other 0 (by decide)
  version_mem := by decide
  numPredicates := by simp [samplePredicates]
  numNodes := by decide
  imports_nil := by simp
  functions_nil := by simp
  numImports := by decide
  importTexts := by simp
  numExports := by simp
  exportTexts e he := by
    rw [List.mem_singleton.mp he]
    omega
  numRules := by simp
  rulePredicates := by simp [samplePredicates, sampleRule]
  numStrings := by decide
  stringTexts := by simp
  numConsts := by decide

end Meld.Linker
