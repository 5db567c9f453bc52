import Meld.Linker.PredicateRefs

/-!
# Resolution of imports

An import names the predicate to import, its name in the primary program and the file that exports
it. The linker looks for the first secondary program that has a predicate of the imported name; it
looks neither at the file nor at what the program exports, and it takes the last import of the name.
`importsResolved_iff` says for which programs this finds what the imports name.
-/

namespace Meld.Linker

open Lib Lib.Bytes Vm

variable (mem : Memory) (primary : Program) (secondaries : List Program)

/-- The predicate of the import has the linker id of what the file exports under the name. -/
def ImportResolved (imp : Import) (id : ℕ) : Prop :=
  ∃ t, exported secondaries imp = some t ∧
    (writtenPredicates primary secondaries)[linkerId mem primary secondaries ⟨.primary, id⟩]? =
      some t

/-- Every import is resolved to what its file exports. -/
def ImportsResolved : Prop :=
  ∀ imp ∈ primary.imports, ∀ id p, primary.predicates[id]? = some p → p.name = imp.as →
    ImportResolved mem primary secondaries imp id

/-- The first program with a predicate of the name that the last import of the predicate has: the
predicate there is not a common one, and its number, as far as it fits, is that of what the file
exports. -/
def ImportMatched (imp : Import) : Prop :=
  ∃ t, exported secondaries imp = some t ∧ ∃ last j i,
    primary.importOf imp.as = some last ∧ findPredicate secondaries last.imp = some (j, i) ∧
      commonPredicates ≤ i ∧
        place primary secondaries ⟨.secondary j, i⟩ % 256 = place primary secondaries t

/-- The lookup by name finds what the file exports, for the import of every predicate. -/
def ImportsMatched : Prop :=
  ∀ imp ∈ primary.imports, ∀ (id : ℕ) (p : PredicateDef), primary.predicates[id]? = some p →
    p.name = imp.as → ImportMatched primary secondaries imp

variable {primary secondaries} {mem : Memory} {table : List FuncDef} {l : Linked} {id i j : ℕ}
  {p : PredicateDef} {imp last : Import} {t : Entry}

theorem exists_importOf (h : imp ∈ primary.imports) :
    ∃ last ∈ primary.imports, primary.importOf imp.as = some last ∧ last.as = imp.as := by
  have hmem : imp ∈ primary.imports.filter (·.as == imp.as) :=
    List.mem_filter.mpr ⟨h, beq_self_eq_true _⟩
  obtain ⟨last, hlast⟩ := Option.isSome_iff_exists.mp
    (List.getLast?_isSome.mpr (List.ne_nil_of_mem hmem))
  obtain ⟨hmem', has⟩ := List.mem_filter.mp (List.mem_of_getLast? hlast)
  exact ⟨last, hmem', hlast, beq_iff_eq.mp has⟩

/-- What a file exports is found by its name. -/
theorem exists_findPredicate {imp : Import} (h : exported secondaries imp = some t) :
    ∃ p, findPredicate secondaries imp.imp = some p := by
  obtain ⟨⟨prog, j⟩, hfind, h⟩ := Option.bind_eq_some_iff.mp h
  split_ifs at h
  obtain ⟨i, hi, -⟩ := Option.map_eq_some_iff.mp h
  by_contra hnone
  have hall : findPredicate secondaries imp.imp = none :=
    Option.eq_none_iff_forall_ne_some.mpr fun p hp => hnone ⟨p, hp⟩
  have hmem := List.findSome?_eq_none_iff.mp hall (prog, j) (List.mem_of_find?_eq_some hfind)
  simp only [hi, Option.map_some] at hmem
  cases hmem

/-- The linker id of an imported predicate. -/
theorem linkerId_of_import (hp : primary.predicates[id]? = some p)
    (hlast : primary.importOf p.name = some last)
    (hfind : findPredicate secondaries last.imp = some (j, i)) :
    linkerId mem primary secondaries ⟨.primary, id⟩ =
      ownLinkerId mem primary secondaries ⟨.secondary j, i⟩ % 256 := by
  have himported : isImported primary id = true :=
    (@isImported_iff _ secondaries _).mpr ⟨last, by simp [importOf, getProgram, hp, hlast]⟩
  rw [linkerId, if_pos ⟨rfl, himported⟩, getImportedPredicateId, hp, Option.bind_some, hlast]
  simp only [hfind]

/-- The place of a found predicate is in the table. -/
theorem place_lt_of_findPredicate {name : Text}
    (hfind : findPredicate secondaries name = some (j, i)) (hi : commonPredicates ≤ i) :
    place primary secondaries ⟨.secondary j, i⟩ <
      (writtenPredicates primary secondaries).length := by
  obtain ⟨⟨prog, k⟩, hmem, hp⟩ := List.exists_of_findSome?_eq_some hfind
  obtain ⟨i', hi', heq⟩ := Option.map_eq_some_iff.mp hp
  cases heq
  have hlt := (List.findIdx?_eq_some_iff_getElem.mp hi').1
  have hrange : i < commonPredicates + (prog.predicates.length - commonPredicates) := by omega
  exact List.idxOf_lt_length_of_mem (mem_entries.mpr ⟨prog, List.mem_zipIdx_iff_getElem?.mp hmem,
    List.mem_range'_1.mpr ⟨hi, hrange⟩⟩)

/-- A predicate is resolved, whatever the memory holds, when the lookup finds what the file
exports. -/
theorem importResolved_iff (hp : primary.predicates[id]? = some p) (hname : p.name = imp.as)
    (hlast : primary.importOf imp.as = some last)
    (hfind : findPredicate secondaries last.imp = some (j, i)) :
    (∀ mem, ImportResolved mem primary secondaries imp id) ↔
      ImportMatched primary secondaries imp := by
  have hid := fun mem => @linkerId_of_import _ _ mem _ _ _ _ _ hp (hname ▸ hlast) hfind
  constructor
  · intro h
    by_cases hcommon : i < commonPredicates
    · -- the linker id is what the memory holds, but there is only one right number
      have hnum : ∀ n, n < 2 → ∀ t, exported secondaries imp = some t →
          place primary secondaries t = n := by
        intro n hn t ht
        obtain ⟨t', ht', hget⟩ := h ⟨fun _ _ => n, fun _ _ => 0, fun _ _ _ => 0⟩
        obtain rfl := Option.some.inj (ht'.symm.trans ht)
        rw [hid, ownLinkerId] at hget
        simp only [hcommon, if_true] at hget
        rw [(getElem?_writtenPredicates.mp hget).2]
        omega
      obtain ⟨t, ht, -⟩ := h zeros
      have hzero := hnum 0 (by omega) t ht
      have hone := hnum 1 (by omega) t ht
      omega
    · obtain ⟨t, ht, hget⟩ := h zeros
      refine ⟨t, ht, last, j, i, hlast, hfind, not_lt.mp hcommon, ?_⟩
      rw [hid, ownLinkerId] at hget
      simp only [hcommon, if_false] at hget
      exact (getElem?_writtenPredicates.mp hget).2.symm
  · rintro ⟨t, ht, last', j', i', hlast', hfind', hcommon, hplace⟩ mem
    obtain rfl := Option.some.inj (hlast'.symm.trans hlast)
    obtain ⟨rfl, rfl⟩ := Prod.mk.inj (Option.some.inj (hfind'.symm.trans hfind))
    refine ⟨t, ht, ?_⟩
    have hlt := @place_lt_of_findPredicate primary _ _ _ _ hfind hcommon
    rw [hid, ownLinkerId]
    simp only [not_lt.mpr hcommon, if_false]
    change (writtenPredicates primary secondaries)[place primary secondaries _ % 256]? = some t
    rw [hplace]
    refine List.getElem?_idxOf (List.idxOf_lt_length_iff.mp ?_)
    calc place primary secondaries t
        = place primary secondaries ⟨.secondary j', i'⟩ % 256 := hplace.symm
      _ ≤ place primary secondaries ⟨.secondary j', i'⟩ := Nat.mod_le _ _
      _ < (writtenPredicates primary secondaries).length := hlt

/-- Every import is resolved to what its file exports, whatever the memory holds, exactly when the
lookup by name finds it. -/
theorem importsResolved_iff (table : List FuncDef) (primary : Program) (secondaries : List Program)
    (hok : ∀ mem, ∃ l, linker mem table primary secondaries = .ok l) :
    (∀ mem l, linker mem table primary secondaries = .ok l →
      ImportsResolved mem primary secondaries) ↔ ImportsMatched primary secondaries := by
  constructor
  · intro h imp himp id p hp hname
    have hresolved : ∀ mem, ImportsResolved mem primary secondaries := fun mem => by
      obtain ⟨l, hl⟩ := hok mem
      exact h mem l hl
    obtain ⟨last, hmem, hlast, has⟩ := exists_importOf himp
    -- what the file of the last import exports is found by its name
    obtain ⟨t, ht, -⟩ := hresolved zeros last hmem id p hp
      (hname.trans has.symm)
    obtain ⟨⟨j, i⟩, hfind⟩ := exists_findPredicate ht
    exact (importResolved_iff hp hname hlast hfind).mp fun mem =>
      hresolved mem imp himp id p hp hname
  · intro h mem l _ imp himp id p hp hname
    have hmatched := h imp himp id p hp hname
    obtain ⟨t, -, last, j, i, hlast, hfind, -⟩ := hmatched
    exact (importResolved_iff hp hname hlast hfind).mpr (h imp himp id p hp hname) mem

/-- The import of a predicate that its file exports. -/
theorem importsResolved_iff_sample :
    (∀ mem l, linker mem [] importingSample [exportingSample (allocating 8)] = .ok l →
      ImportsResolved mem importingSample [exportingSample (allocating 8)]) ↔
    ImportsMatched importingSample [exportingSample (allocating 8)] :=
  importsResolved_iff [] importingSample [exportingSample (allocating 8)] fun _ => ⟨_, rfl⟩

/-- The program `b` when it exports nothing. -/
def privateSample : Program :=
  { exportingSample (allocating 8) with
    exports := []
    imports_nil := fun _ => ⟨rfl, rfl⟩
    numExports := by decide
    exportTexts := by simp }

/-- An import is linked although its file does not export the predicate. -/
theorem not_importsResolved : ∃ mem l,
    linker mem [] importingSample [privateSample] = .ok l ∧
      ¬ ImportsResolved mem importingSample [privateSample] := by
  refine ⟨zeros, _, rfl, fun h => ?_⟩
  obtain ⟨t, ht, -⟩ := h ⟨[0x70], [0x78], [0x62]⟩ (by decide) 8 _ rfl (by decide +kernel)
  have hnone : exported [privateSample] ⟨[0x70], [0x78], [0x62]⟩ = none := by decide +kernel
  rw [hnone] at ht
  cases ht

end Meld.Linker
