import Meld.Linker.Program

/-!
# The linker

`linker` writes one byte-code file from a primary program and the secondary programs that it imports
from. The tables of the file are those of the programs, one after another; every predicate and rule
gets the number of its entry as its linker id (`offset` and `rule_offset` count the entries that have
been written), an imported predicate of the primary program gets the number of the predicate that it
was resolved to, and the byte-code of predicates and rules is printed with these ids; that of
functions and constants is copied.

The linker ids of what gets no entry, the common predicates and the first rule of a secondary
program, are never set: they are what the memory holds.
-/

namespace Meld.Linker

open Lib Lib.Bytes Vm Vm.Bytecode Traversal

/-- `COMMON_PREDICATES`: the predicates that every program starts with. -/
def commonPredicates : ℕ := 8

/-- What was never set. -/
structure Memory where
  /-- the linker ids of the predicates of a secondary program -/
  predicateId : ℕ → ℕ → ℕ
  /-- the linker ids of the rules of a secondary program -/
  ruleId : ℕ → ℕ → ℕ
  /-- what follows the text that `rename` copies the name of a predicate from -/
  afterName : ℕ → ℕ → ℕ → UInt8

/-- One of the programs: the primary one, or a secondary one by its place in the list. -/
inductive Source
  | primary
  | secondary (j : ℕ)
  deriving DecidableEq, Repr

/-- A predicate, a rule or a function of one of the programs. -/
structure Entry where
  source : Source
  id : ℕ
  deriving DecidableEq, Repr

/-- A line of the definitions file: an external function and the file it is in. -/
structure FuncDef where
  name : Text
  file : Text
  length_file : file.length < 512

/-- `dummy_path`, with the zero at its end. -/
def dummyPath : List UInt8 :=
  [47, 104, 111, 109, 101, 47, 114, 117, 112, 101, 115, 104, 47, 108, 115, 46, 111, 0]

/-- A rule of the output. -/
structure LinkedRule where
  code : List UInt8
  isPersistent : Bool
  predicates : List UInt8

/-- The output: what is written for each table, and the counts that are written before them. -/
structure Linked where
  version : ℕ
  numPredicates : ℕ
  nodes : List (UInt32 × UInt32)
  imports : List Import
  exports : List Text
  numArgs : UInt8
  numRules : ℕ
  ruleTexts : List Text
  strings : List Text
  constTypes : List UInt8
  constCode : List UInt8
  numFunctions : ℕ
  functions : List (List UInt8)
  numExterns : ℕ
  externs : List Extern
  descriptors : List (List UInt8)
  globalInfo : GlobalInfo
  predicateCode : List (List UInt8)
  numRulesCode : ℕ
  rules : List LinkedRule

section

variable (mem : Memory) (table : List FuncDef) (primary : Program) (secondaries : List Program)

/-! ### The entries of the tables -/

/-- The program. -/
def getProgram : Source → Option Program
  | .primary => some primary
  | .secondary j => secondaries[j]?

/-- The entries of a table, for each program the ids that are written. -/
def entries (ids : Program → List ℕ) (ids' : Program → List ℕ) : List Entry :=
  (ids primary).map (⟨.primary, ·⟩) ++
    secondaries.zipIdx.flatMap fun (prog, j) => (ids' prog).map (⟨.secondary j, ·⟩)

/-- `is_imported`. -/
def isImported (id : ℕ) : Bool := (primary.predicates[id]?).any fun p => primary.imported p.name

/-- The predicates in the order of their descriptors: those of the primary program that are not
imported, and those of the secondary programs that are not common. -/
def writtenPredicates : List Entry :=
  entries primary secondaries
    (fun prog => (List.range prog.predicates.length).filter (!isImported primary ·))
    (fun prog => List.range' commonPredicates (prog.predicates.length - commonPredicates))

/-- The predicates in the order of their byte-code: the loop over a secondary program is bounded by
the number of predicates of the first one. -/
def writtenPredicateCode : List Entry :=
  entries primary secondaries
    (fun prog => (List.range prog.predicates.length).filter (!isImported primary ·))
    (fun _ => match secondaries with
      | [] => []
      | first :: _ => List.range' commonPredicates (first.predicates.length - commonPredicates))

/-- The rules: the first rule of a secondary program, `init`, is left out. -/
def writtenRules : List Entry :=
  entries primary secondaries (fun prog => List.range prog.rules.length)
    (fun prog => List.range' 1 (prog.rules.length - 1))

def writtenFunctions : List Entry :=
  entries primary secondaries (fun prog => List.range prog.functions.length)
    (fun prog => List.range prog.functions.length)

/-! ### Linker ids -/

/-- The first secondary program that has a predicate of the name, and the predicate there. -/
def findPredicate (name : Text) : Option (ℕ × ℕ) :=
  secondaries.zipIdx.findSome? fun (prog, j) => (prog.getPredicateByName name).map (j, ·)

/-- The linker id of a predicate that is not imported by the primary program. -/
def ownLinkerId (i : Entry) : ℕ :=
  match i.source with
  | .primary => (writtenPredicates primary secondaries).idxOf i
  | .secondary j =>
    if i.id < commonPredicates then mem.predicateId j i.id
    else (writtenPredicates primary secondaries).idxOf i

/-- `get_imported_predicate_id`; the result is an unsigned char. -/
def getImportedPredicateId (id : ℕ) : ℕ :=
  match (primary.predicates[id]?).bind fun p => primary.importOf p.name with
  | some imp =>
    match findPredicate secondaries imp.imp with
    | some (j, i) => ownLinkerId mem primary secondaries ⟨.secondary j, i⟩ % 256
    | none => id
  | none => id

/-- `get_linker_id` of a predicate. -/
def linkerId (i : Entry) : ℕ :=
  if i.source = .primary ∧ isImported primary i.id then
    getImportedPredicateId mem primary secondaries i.id
  else
    ownLinkerId mem primary secondaries i

/-- `get_linker_id` of a rule. -/
def ruleLinkerId (i : Entry) : ℕ :=
  match i.source with
  | .primary => (writtenRules primary secondaries).idxOf i
  | .secondary j =>
    if i.id = 0 then mem.ruleId j i.id else (writtenRules primary secondaries).idxOf i

/-- What printing needs of the program. -/
def links (source : Source) (prog : Program) : Links where
  predicates := prog.predicates.mapIdx fun id p =>
    (linkerId mem primary secondaries ⟨source, id⟩, p.types)
  rules := (List.range prog.rules.length).map fun id =>
    ruleLinkerId mem primary secondaries ⟨source, id⟩
  numStrings := prog.strings.length

/-- What `instrs_print` makes of byte-code, in a program that allows changes to it. No more
instructions are nested or follow one another than there are bytes. -/
def printCode (links : Links) (c : Code) : Exec (List UInt8) := do
  let fuel := c.bytes.length + 1
  let (_, t) ← instrsPrint (instrPrint links fuel true) fuel 0 c.bytes.length ⟨c.bytes, []⟩
  return t.code

/-- `modify_code`: the byte-code of the rules and of the predicates. -/
def modifyCode (source : Source) (prog : Program) :
    Exec (List (List UInt8) × List (List UInt8)) := do
  let links := links mem primary secondaries source prog
  let rules ← prog.rules.mapM fun r => printCode links r.code
  let predicates ← prog.predicates.mapM fun p => printCode links p.code
  return (rules, predicates)

/-! ### The output -/

/-- The descriptor as it is written: a predicate of a secondary program was renamed. -/
def descriptor (i : Entry) : List UInt8 :=
  match (getProgram primary secondaries i.source).bind fun prog =>
    (prog.predicates[i.id]?).map (prog, ·) with
  | none => []
  | some (prog, p) =>
    match i.source with
    | .primary => p.descriptor
    | .secondary j =>
      let name := p.name ++ [0x2e] ++ prog.name ++ [0]
      p.descriptor.take 40 ++ (name ++ (List.range 32).map (mem.afterName j i.id)).take 32 ++
        p.descriptor.drop 72

/-- The nodes of the first program with the most nodes. The most nodes so far are kept in an `int`,
which is compared as a `size_t`. -/
def linkedNodes : List (UInt32 × UInt32) :=
  secondaries.foldl
    (fun nodes prog =>
      if wrap32 nodes.length % 2 ^ 64 < prog.nodes.length then prog.nodes else nodes)
    primary.nodes

/-- The file of an external function by its name (`get_filename`), which is written over the beginning
of the name of the file. -/
def linkedFile (e : Extern) : List UInt8 :=
  let file := match table.find? (·.name == cString e.name) with
    | some f => f.file
    | none => dummyPath
  file ++ e.file.drop file.length

/-- The path of a function has its fixed length. -/
theorem length_linkedFile (e : Extern) : (linkedFile table e).length = 1024 := by
  have hlen := e.length_file
  rw [linkedFile]
  split
  · rename_i f _
    have := f.length_file
    rw [List.length_append, List.length_drop]
    omega
  · rw [List.length_append, List.length_drop, dummyPath]
    simp only [List.length_cons, List.length_nil]
    omega

/-- An external function as it is written. -/
def linkedExtern (e : Extern) (id : UInt32) : Extern :=
  { e with id := id, file := linkedFile table e, length_file := length_linkedFile table e }

/-- The external functions; those of the secondary programs are numbered anew. -/
def linkedExterns : List Extern :=
  primary.externs.map (fun e => linkedExtern table e e.id) ++
    (secondaries.flatMap Program.externs).mapIdx fun i e =>
      linkedExtern table e (.ofNat (primary.externs.length + i))

/-- A rule as it is written, with its printed code. -/
def linkedRule (source : Source) (r : RuleDef) (code : List UInt8) : LinkedRule where
  code := code
  isPersistent := r.isPersistent
  predicates := r.predicates.map fun p =>
    .ofNat (linkerId mem primary secondaries ⟨source, p.toNat⟩)

/-- `linker`. -/
def linker : Exec Linked := do
  -- a rule without a text
  assert (∀ prog ∈ secondaries, ∀ r ∈ prog.rules.drop 1, r.string ≠ [])
  let own := (List.range primary.predicates.length).filter (!isImported primary ·)
  -- `offset` after the predicates of the primary program
  assert (own.length + primary.imports.length = primary.predicates.length)
  let printed ← modifyCode mem primary secondaries .primary primary
  let printed' ← secondaries.zipIdx.mapM fun (prog, j) =>
    modifyCode mem primary secondaries (.secondary j) prog
  let code (i : Entry) (codes : List (List UInt8) × List (List UInt8) → List (List UInt8)) :
      Exec (List UInt8) :=
    match i.source with
    | .primary => deref (codes printed)[i.id]?
    | .secondary j => deref ((printed'[j]?).bind fun p => (codes p)[i.id]?)
  let predicateCode ← (writtenPredicateCode primary secondaries).mapM (code · Prod.snd)
  let rules ← (writtenRules primary secondaries).mapM fun i => do
    let prog ← deref (getProgram primary secondaries i.source)
    let r ← deref prog.rules[i.id]?
    return linkedRule mem primary secondaries i.source r (← code i Prod.fst)
  let newRules := (secondaries.map fun prog => (prog.rules.length : ℤ) - 1).sum
  return {
    version := primary.version
    numPredicates := ((primary.predicates.length +
      (secondaries.map fun prog => (prog.predicates.length : ℤ) - commonPredicates).sum -
      primary.imports.length) % 256).toNat
    nodes := linkedNodes primary secondaries
    imports := primary.imports
    exports := primary.exports
    numArgs := primary.numArgs
    numRules := ((primary.rules.length + newRules) % 2 ^ 32).toNat
    ruleTexts := primary.rules.map RuleDef.text ++
      secondaries.flatMap fun prog => (prog.rules.drop 1).map RuleDef.string
    strings := primary.strings
    constTypes := primary.constTypes
    constCode := primary.constCode.bytes
    numFunctions := (primary.functions.length +
      (secondaries.map fun prog => prog.functions.length).sum) % 2 ^ 32
    functions := (primary.functions ++ secondaries.flatMap Program.functions).map Code.bytes
    numExterns := (primary.externs.length +
      (secondaries.map fun prog => prog.externs.length).sum) % 2 ^ 32
    externs := linkedExterns table primary secondaries
    descriptors := (writtenPredicates primary secondaries).map
      (descriptor mem primary secondaries)
    globalInfo := primary.globalInfo
    predicateCode := predicateCode
    numRulesCode := ((primary.rules.length + newRules) % 2 ^ 32).toNat
    rules := rules }

end

end Meld.Linker
