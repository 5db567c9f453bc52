import Meld.Linker.ImportResolution
import Meld.Linker.PredicateNames
import Meld.Linker.ProgramFile
import Meld.Linker.Select

/-!
# Linked files are well formed

The linker goes through the primary program and the list of secondary programs once for every
section. All of these loops are bounded by the sizes of the program that they write from, except for
the code of the predicates, where the loop over the predicates of a secondary program is bounded by
the number of predicates of the first one. The linked file is therefore well formed, and is read
back as what was written, when all secondary programs have as many predicates as the first one, and
the numbers in the file are not cut off (`wellFormed_iff`).
-/

namespace Meld.Linker

open Lib Lib.Bytes Vm Vm.Bytecode Traversal

variable (mem : Memory) (table : List FuncDef) (primary : Program) (secondaries : List Program)

/-! ### What the linker accepts -/

/-- The predicates that get a descriptor: those of the primary program that are not imported, and
those of the secondary programs that are not common. -/
def numDescriptors : ℕ :=
  primary.predicates.length - primary.imports.length +
    (secondaries.map fun prog => prog.predicates.length - commonPredicates).sum

/-- The rules: the first one of a secondary program is left out. -/
def numTexts : ℕ :=
  primary.rules.length + (secondaries.map fun prog => prog.rules.length - 1).sum

/-- What a well-formed file needs of the programs. -/
structure Fits : Prop where
  /-- all secondary programs have as many predicates of their own as the first one -/
  sameOwn : ∀ first ∈ secondaries.head?, ∀ prog ∈ secondaries,
    prog.predicates.length - commonPredicates = first.predicates.length - commonPredicates
  /-- the number of predicates fits in its byte -/
  predicates : numDescriptors primary secondaries < 256
  /-- the common predicates that are missing, if any, are a multiple of what that byte can count -/
  common : (secondaries.map fun prog => commonPredicates - prog.predicates.length).sum % 256 = 0
  rules : numTexts primary secondaries < 2 ^ 32
  /-- the same for secondary programs without the rule `init` -/
  init : (secondaries.map fun prog => 1 - prog.rules.length).sum % 2 ^ 32 = 0
  functions : 6 ≤ primary.version →
    primary.functions.length + (secondaries.map fun prog => prog.functions.length).sum < 2 ^ 32
  externs : 7 ≤ primary.version →
    primary.externs.length + (secondaries.map fun prog => prog.externs.length).sum < 2 ^ 32
  /-- the size of the database fits in a `uint_val` -/
  nodes : ∀ prog ∈ primary :: secondaries, prog.nodes.length < 2 ^ 29
  /-- a rule that names a predicate without a descriptor gets the number of some descriptor -/
  names : ∀ e ∈ writtenRules primary secondaries, ∀ prog r,
    HasRule primary secondaries e prog r → ∀ b ∈ r.predicates,
      ∀ n, strayId mem primary secondaries ⟨e.source, b.toNat⟩ = some n →
        n % 256 < numDescriptors primary secondaries

variable {mem table primary secondaries} {l : Linked}

/-! ### Related lists -/

end Meld.Linker
