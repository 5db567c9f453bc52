import Meld.Linker.Merge

/-!
# The output of the linker

What the linker writes, entry by entry: the code of an entry is the printed code of its predicate or
rule, or the code of its function as it is. A property of the written code against that of the
programs (`EachCode`) is decided by one of the programs' code when printed and copied code each are
(`eachCode_iff`).
-/

namespace Meld.Linker

open Lib Lib.Bytes Vm Vm.Bytecode Traversal

variable {mem : Memory} {table : List FuncDef} {primary : Program} {secondaries : List Program}
  {l : Linked}

/-! ### The entries of a table -/

theorem mem_entries {ids ids' : Program → List ℕ} {e : Entry} :
    e ∈ entries primary secondaries ids ids' ↔
      match e.source with
      | .primary => e.id ∈ ids primary
      | .secondary j => ∃ prog, secondaries[j]? = some prog ∧ e.id ∈ ids' prog := by
  obtain ⟨source, id⟩ := e
  rw [entries, List.mem_append, List.mem_map, List.mem_flatMap]
  cases source with
  | primary =>
    simp only [Entry.mk.injEq, true_and, exists_eq_right, List.mem_map, reduceCtorEq, false_and,
      and_false, exists_false, or_false]
  | secondary j =>
    simp only [Entry.mk.injEq, reduceCtorEq, false_and, and_false, exists_false, false_or,
      List.mem_map, Source.secondary.injEq]
    constructor
    · rintro ⟨⟨prog, j'⟩, hmem, id', hid, rfl, rfl⟩
      exact ⟨prog, List.mem_zipIdx_iff_getElem?.mp hmem, hid⟩
    · rintro ⟨prog, hprog, hid⟩
      exact ⟨(prog, j), List.mem_zipIdx_iff_getElem?.mpr hprog, id, hid, rfl, rfl⟩

theorem nodup_entries {ids ids' : Program → List ℕ} (h : (ids primary).Nodup)
    (h' : ∀ prog, (ids' prog).Nodup) : (entries primary secondaries ids ids').Nodup := by
  rw [entries, List.nodup_append]
  refine ⟨h.map fun _ _ heq => congrArg Entry.id heq, ?_, ?_⟩
  · rw [List.nodup_flatMap]
    refine ⟨fun p _ => (h' p.1).map fun _ _ heq => congrArg Entry.id heq, ?_⟩
    have hidx : (secondaries.zipIdx.map Prod.snd).Nodup := by
      rw [List.zipIdx_map_snd]
      exact List.nodup_range'
    refine (List.pairwise_map.mp hidx).imp fun {p q} hne => ?_
    rw [Function.onFun, List.disjoint_left]
    rintro e hp hq
    obtain ⟨i, -, rfl⟩ := List.mem_map.mp hp
    obtain ⟨i', -, heq⟩ := List.mem_map.mp hq
    exact hne (Source.secondary.inj (congrArg Entry.source heq)).symm
  · rintro e he e' he' rfl
    obtain ⟨i, -, rfl⟩ := List.mem_map.mp he
    obtain ⟨p, -, hp⟩ := List.mem_flatMap.mp he'
    obtain ⟨i', -, heq⟩ := List.mem_map.mp hp
    cases congrArg Entry.source heq

/-- In a list without duplicates an entry has one place. -/
theorem getElem?_iff_idxOf {es : List Entry} (h : es.Nodup) {e : Entry} {i : ℕ} :
    es[i]? = some e ↔ e ∈ es ∧ es.idxOf e = i := by
  constructor
  · intro hi
    obtain ⟨hlt, rfl⟩ := List.getElem?_eq_some_iff.mp hi
    exact ⟨List.getElem_mem hlt, h.idxOf_getElem i hlt⟩
  · rintro ⟨hmem, rfl⟩
    exact List.getElem?_idxOf hmem

theorem nodup_writtenPredicates : (writtenPredicates primary secondaries).Nodup :=
  nodup_entries (List.nodup_range.filter _) fun _ => List.nodup_range'

theorem nodup_writtenRules : (writtenRules primary secondaries).Nodup :=
  nodup_entries List.nodup_range fun _ => List.nodup_range'

theorem nodup_writtenFunctions : (writtenFunctions primary secondaries).Nodup :=
  nodup_entries List.nodup_range fun _ => List.nodup_range

/-! ### The parts of a run -/

/-- The program of an entry has the predicate. -/
def HasPredicate (primary : Program) (secondaries : List Program) (e : Entry) (prog : Program)
    (p : PredicateDef) : Prop :=
  getProgram primary secondaries e.source = some prog ∧ prog.predicates[e.id]? = some p

/-- The program of an entry has the rule. -/
def HasRule (primary : Program) (secondaries : List Program) (e : Entry) (prog : Program)
    (r : RuleDef) : Prop :=
  getProgram primary secondaries e.source = some prog ∧ prog.rules[e.id]? = some r

/-- The program of an entry has the function. -/
def HasFunction (primary : Program) (secondaries : List Program) (e : Entry) (prog : Program)
    (c : Code) : Prop :=
  getProgram primary secondaries e.source = some prog ∧ prog.functions[e.id]? = some c

/-- What the linker writes. -/
structure Output (mem : Memory) (table : List FuncDef) (primary : Program)
    (secondaries : List Program) (l : Linked) : Prop where
  predicateCode : List.Forall₂ (fun e c' => ∃ prog p, HasPredicate primary secondaries e prog p ∧
      printCode (links mem primary secondaries e.source prog) p.code = .ok c')
    (writtenPredicateCode primary secondaries) l.predicateCode
  rules : List.Forall₂ (fun e r' => ∃ prog r c', HasRule primary secondaries e prog r ∧
      printCode (links mem primary secondaries e.source prog) r.code = .ok c' ∧
        r' = linkedRule mem primary secondaries e.source r c')
    (writtenRules primary secondaries) l.rules
  own : ((List.range primary.predicates.length).filter (!isImported primary ·)).length +
    primary.imports.length = primary.predicates.length
  texts : ∀ prog ∈ secondaries, ∀ r ∈ prog.rules.drop 1, r.string ≠ []
  nodes : l.nodes = linkedNodes primary secondaries
  constTypes : l.constTypes = primary.constTypes
  constCode : l.constCode = primary.constCode.bytes
  strings : l.strings = primary.strings
  functions : l.functions =
    (primary.functions ++ secondaries.flatMap Program.functions).map Code.bytes
  externs : l.externs = linkedExterns table primary secondaries
  descriptors : l.descriptors =
    (writtenPredicates primary secondaries).map (descriptor mem primary secondaries)

/-- The printed code of a program. -/
theorem getElem?_modifyCode {source : Source} {prog : Program}
    {codes : List (List UInt8) × List (List UInt8)}
    (h : modifyCode mem primary secondaries source prog = .ok codes) :
    (∀ (i : ℕ) (c : List UInt8), codes.1[i]? = some c → ∃ r, prog.rules[i]? = some r ∧
      printCode (links mem primary secondaries source prog) r.code = .ok c) ∧
    (∀ (i : ℕ) (c : List UInt8), codes.2[i]? = some c → ∃ p, prog.predicates[i]? = some p ∧
      printCode (links mem primary secondaries source prog) p.code = .ok c) := by
  obtain ⟨rules, hrules, h⟩ := bind_eq_ok.mp h
  obtain ⟨predicates, hpredicates, h⟩ := bind_eq_ok.mp h
  cases h
  refine ⟨fun i c hc => ?_, fun i c hc => ?_⟩
  · obtain ⟨hlen, hprint⟩ := List.forall₂_iff_get.mp (forall₂_of_mapM hrules)
    obtain ⟨hi, rfl⟩ := List.getElem?_eq_some_iff.mp hc
    exact ⟨_, List.getElem?_eq_getElem (hlen ▸ hi), hprint i (hlen ▸ hi) hi⟩
  · obtain ⟨hlen, hprint⟩ := List.forall₂_iff_get.mp (forall₂_of_mapM hpredicates)
    obtain ⟨hi, rfl⟩ := List.getElem?_eq_some_iff.mp hc
    exact ⟨_, List.getElem?_eq_getElem (hlen ▸ hi), hprint i (hlen ▸ hi) hi⟩

/-- The printed code of a secondary program. -/
theorem modifyCode_of_mapM {printed : List (List (List UInt8) × List (List UInt8))}
    (h : (secondaries.zipIdx.mapM fun p =>
      modifyCode mem primary secondaries (.secondary p.2) p.1) = .ok printed)
    {j : ℕ} {codes : List (List UInt8) × List (List UInt8)} (hj : printed[j]? = some codes) :
    ∃ prog, secondaries[j]? = some prog ∧
      modifyCode mem primary secondaries (.secondary j) prog = .ok codes := by
  obtain ⟨hlen, hmodify⟩ := List.forall₂_iff_get.mp (forall₂_of_mapM h)
  obtain ⟨hi, rfl⟩ := List.getElem?_eq_some_iff.mp hj
  rw [List.length_zipIdx] at hlen
  have hj' : j < secondaries.length := hlen ▸ hi
  refine ⟨secondaries[j], List.getElem?_eq_getElem hj', ?_⟩
  have hrun := hmodify j (by rwa [List.length_zipIdx]) hi
  simpa only [List.get_eq_getElem, List.getElem_zipIdx, Nat.zero_add] using hrun

theorem output_of_linker (h : linker mem table primary secondaries = .ok l) :
    Output mem table primary secondaries l := by
  rw [linker] at h
  obtain ⟨_, htexts, h⟩ := bind_eq_ok.mp h
  obtain ⟨_, hown, h⟩ := bind_eq_ok.mp h
  obtain ⟨printed, hprinted, h⟩ := bind_eq_ok.mp h
  obtain ⟨printed', hprinted', h⟩ := bind_eq_ok.mp h
  obtain ⟨predicateCode, hcode, h⟩ := bind_eq_ok.mp h
  obtain ⟨rules, hrules, h⟩ := bind_eq_ok.mp h
  rw [assert_eq_ok] at htexts hown
  cases h
  refine ⟨?_, ?_, hown, htexts, rfl, rfl, rfl, rfl, rfl, rfl, rfl⟩
  · refine (forall₂_of_mapM hcode).imp ?_
    rintro ⟨source, id⟩ c hc
    cases source with
    | primary =>
      obtain ⟨p, hp, hprint⟩ := (getElem?_modifyCode hprinted).2 id c (deref_eq_ok.mp hc)
      exact ⟨primary, p, ⟨rfl, hp⟩, hprint⟩
    | secondary j =>
      obtain ⟨codes, hj, hc⟩ := Option.bind_eq_some_iff.mp (deref_eq_ok.mp hc)
      obtain ⟨prog, hprog, hmodify⟩ := modifyCode_of_mapM hprinted' hj
      obtain ⟨p, hp, hprint⟩ := (getElem?_modifyCode hmodify).2 id c hc
      exact ⟨prog, p, ⟨hprog, hp⟩, hprint⟩
  · refine (forall₂_of_mapM hrules).imp ?_
    rintro ⟨source, id⟩ r' hr'
    obtain ⟨prog, hprog, hr'⟩ := bind_eq_ok.mp hr'
    obtain ⟨r, hr, hr'⟩ := bind_eq_ok.mp hr'
    obtain ⟨c, hc, hr'⟩ := bind_eq_ok.mp hr'
    cases hr'
    rw [deref_eq_ok] at hprog hr
    refine ⟨prog, r, c, ⟨hprog, hr⟩, ?_, rfl⟩
    cases source with
    | primary =>
      obtain rfl : primary = prog := Option.some.inj hprog
      obtain ⟨r', hr', hprint⟩ := (getElem?_modifyCode hprinted).1 id c (deref_eq_ok.mp hc)
      obtain rfl : r' = r := Option.some.inj (hr'.symm.trans hr)
      exact hprint
    | secondary j =>
      obtain ⟨codes, hj, hc⟩ := Option.bind_eq_some_iff.mp (deref_eq_ok.mp hc)
      obtain ⟨prog', hprog', hmodify⟩ := modifyCode_of_mapM hprinted' hj
      obtain rfl : prog' = prog := Option.some.inj (hprog'.symm.trans hprog)
      obtain ⟨r', hr', hprint⟩ := (getElem?_modifyCode hmodify).1 id c hc
      obtain rfl : r' = r := Option.some.inj (hr'.symm.trans hr)
      exact hprint

/-- The functions of the output are those of the programs. -/
theorem forall₂_functions (h : Output mem table primary secondaries l) :
    List.Forall₂ (fun e c' => ∃ prog c, HasFunction primary secondaries e prog c ∧ c' = c.bytes)
      (writtenFunctions primary secondaries) l.functions := by
  have hids : ∀ (source : Source) (prog : Program),
      getProgram primary secondaries source = some prog →
      List.Forall₂ (fun e c => ∃ prog, HasFunction primary secondaries e prog c)
        ((List.range prog.functions.length).map (⟨source, ·⟩)) prog.functions := by
    intro source prog hprog
    rw [List.forall₂_map_left_iff, List.forall₂_iff_get]
    refine ⟨List.length_range, fun i hi hi' => ⟨prog, hprog, ?_⟩⟩
    rw [List.get_eq_getElem, List.get_eq_getElem, List.getElem_range]
    exact List.getElem?_eq_getElem hi'
  have hall : List.Forall₂ (fun e c => ∃ prog, HasFunction primary secondaries e prog c)
      (writtenFunctions primary secondaries)
      (primary.functions ++ secondaries.flatMap Program.functions) := by
    rw [writtenFunctions, entries]
    refine (List.rel_append) (hids .primary primary rfl) ?_
    rw [show secondaries.flatMap Program.functions =
        secondaries.zipIdx.flatMap fun p => p.1.functions by
      rw [← List.flatMap_map (f := Prod.fst), List.zipIdx_map_fst]]
    refine List.rel_flatMap (R := fun p q => p = q ∧ p ∈ secondaries.zipIdx) ?_ ?_
    · rw [List.forall₂_same]
      exact fun p hp => ⟨rfl, hp⟩
    · rintro p _ ⟨rfl, hp⟩
      exact hids (.secondary p.2) p.1 (List.mem_zipIdx_iff_getElem?.mp hp)
  rw [h.functions, List.forall₂_map_right_iff]
  refine hall.imp ?_
  rintro e c ⟨prog, hc⟩
  exact ⟨prog, c, hc, rfl⟩

/-! ### Printed code -/

/-- The numbers of a program for its printing. -/
def Links.numbering (links : Links) : Numbering where
  predicate i := ((links.predicates[i]?).map Prod.fst).getD 0
  rule i := (links.rules[i]?).getD 0
  types := links.predicates.map Prod.snd

theorem Links.numbering_of (links : Links) : links.numbering.Of links where
  predicate hget := by simp only [numbering, hget, Option.map_some, Option.getD_some]
  rule hget := by simp only [numbering, hget, Option.getD_some]
  types hget := by simp only [numbering, List.getElem?_map, hget, Option.map_some]

variable {ν : Numbering} {lk : Links} {c : Code} {code : List UInt8}

/-- Printed code consists of the instructions, each relinked as often as printing comes to it. -/
theorem code_of_printCode (hν : ν.Of lk) (h : printCode lk c = .ok code) :
    code = (relinkedParts ν c.heads (c.tree.route 0)).flatten := by
  obtain ⟨⟨pc, t⟩, hprint, h⟩ := bind_eq_ok.mp h
  cases h
  exact printed_eq hν c.lays c.tabled (Nat.lt_succ_of_le c.length_heads_le) hprint

/-- Printing changes ids only. -/
theorem shaped_of_printCode (h : printCode lk c = .ok code) : Shaped c.heads code :=
  ⟨_, shape_relinkedParts lk.numbering c.heads _, code_of_printCode lk.numbering_of h⟩

/-- What stands in printed code at the place of a reference. -/
theorem readAt_of_printCode {k off : ℕ} {h : Head} {r : Ref} (hν : ν.Of lk)
    (hprint : printCode lk c = .ok code) (hk : c.heads[k]? = some h) (hmem : (off, r) ∈ refsAt h) :
    r.readAt code (address c.heads k + off) =
      r.readAt ((relinkBytes ν h)^[c.times k] h.bytes) off := by
  rw [code_of_printCode hν hprint]
  exact readAt_relinked hk hmem

/-- What stands in copied code there. -/
theorem readAt_bytes {k off : ℕ} {h : Head} {r : Ref} (hk : c.heads[k]? = some h)
    (hmem : (off, r) ∈ refsAt h) : r.readAt c.bytes (address c.heads k + off) = r := by
  have hread : r.readAt (relinkedParts ⟨id, id, []⟩ c.heads []).flatten (address c.heads k + off) =
      r.readAt h.bytes off := readAt_relinked hk hmem
  rw [relinkedParts_nil] at hread
  exact hread.trans (readAt_of_mem_refsAt hmem).2

/-! ### Properties of the written code -/

variable (primary secondaries)

/-- The byte-code of every predicate, rule and function of the output is related to that of the
programs. -/
structure EachCode (R : Source → Program → Code → List UInt8 → Prop) (l : Linked) : Prop where
  predicateCode : List.Forall₂ (fun e c' => ∀ prog p, HasPredicate primary secondaries e prog p →
    R e.source prog p.code c') (writtenPredicateCode primary secondaries) l.predicateCode
  rules : List.Forall₂ (fun e r' => ∀ prog r, HasRule primary secondaries e prog r →
    R e.source prog r.code r'.code) (writtenRules primary secondaries) l.rules
  functions : List.Forall₂ (fun e c' => ∀ prog c, HasFunction primary secondaries e prog c →
    R e.source prog c c') (writtenFunctions primary secondaries) l.functions

/-- Of the programs' byte-code that is written, the printed code of predicates and rules has the one
property, and the copied code of functions the other. -/
structure EachWritten (P Q : Source → Program → Code → Prop) : Prop where
  predicateCode : ∀ e ∈ writtenPredicateCode primary secondaries, ∀ prog p,
    HasPredicate primary secondaries e prog p → P e.source prog p.code
  rules : ∀ e ∈ writtenRules primary secondaries, ∀ prog r,
    HasRule primary secondaries e prog r → P e.source prog r.code
  functions : ∀ e ∈ writtenFunctions primary secondaries, ∀ prog c,
    HasFunction primary secondaries e prog c → Q e.source prog c

variable {primary secondaries}

/-- Two relations between the same lists of which one is decided by the first list. -/
theorem forall₂_iff {α β : Type} {P Q : α → β → Prop} {C : α → Prop} {as : List α} {bs : List β}
    (h : List.Forall₂ P as bs) (hiff : ∀ a b, P a b → (Q a b ↔ C a)) :
    List.Forall₂ Q as bs ↔ ∀ a ∈ as, C a := by
  induction h with
  | nil => simp
  | cons hab _ ih => rw [List.forall₂_cons, List.forall_mem_cons, hiff _ _ hab, ih]

theorem HasPredicate.unique {e : Entry} {prog prog' : Program} {p p' : PredicateDef}
    (h : HasPredicate primary secondaries e prog p)
    (h' : HasPredicate primary secondaries e prog' p') : prog' = prog ∧ p' = p := by
  obtain rfl : prog' = prog := Option.some.inj (h'.1.symm.trans h.1)
  exact ⟨rfl, Option.some.inj (h'.2.symm.trans h.2)⟩

theorem HasRule.unique {e : Entry} {prog prog' : Program} {r r' : RuleDef}
    (h : HasRule primary secondaries e prog r) (h' : HasRule primary secondaries e prog' r') :
    prog' = prog ∧ r' = r := by
  obtain rfl : prog' = prog := Option.some.inj (h'.1.symm.trans h.1)
  exact ⟨rfl, Option.some.inj (h'.2.symm.trans h.2)⟩

theorem HasFunction.unique {e : Entry} {prog prog' : Program} {c c' : Code}
    (h : HasFunction primary secondaries e prog c)
    (h' : HasFunction primary secondaries e prog' c') : prog' = prog ∧ c' = c := by
  obtain rfl : prog' = prog := Option.some.inj (h'.1.symm.trans h.1)
  exact ⟨rfl, Option.some.inj (h'.2.symm.trans h.2)⟩

/-- A relation between the entries of a table and what was written for them, which what the entries
have in their programs decides. -/
theorem forall₂_has_iff {α β : Type} {Has : Entry → Program → α → Prop}
    {W R : Entry → Program → α → β → Prop} {P : Entry → Program → α → Prop} {es : List Entry}
    {bs : List β} (h : List.Forall₂ (fun e b => ∃ prog x, Has e prog x ∧ W e prog x b) es bs)
    (hunique : ∀ {e prog prog' x x'}, Has e prog x → Has e prog' x' → prog' = prog ∧ x' = x)
    (hiff : ∀ {e prog x b}, Has e prog x → W e prog x b → (R e prog x b ↔ P e prog x)) :
    List.Forall₂ (fun e b => ∀ prog x, Has e prog x → R e prog x b) es bs ↔
      ∀ e ∈ es, ∀ prog x, Has e prog x → P e prog x := by
  refine forall₂_iff h ?_
  rintro e b ⟨prog, x, hx, hW⟩
  constructor
  · intro hR prog' x' hx'
    obtain ⟨rfl, rfl⟩ := hunique hx hx'
    exact (hiff hx hW).mp (hR _ _ hx)
  · intro hP prog' x' hx'
    obtain ⟨rfl, rfl⟩ := hunique hx hx'
    exact (hiff hx hW).mpr (hP _ _ hx)

/-- What the linker writes for the rules, by what they have in their programs. -/
theorem Output.written (h : Output mem table primary secondaries l) :
    List.Forall₂ (fun e r' => ∃ prog r, HasRule primary secondaries e prog r ∧
      ∃ c', printCode (links mem primary secondaries e.source prog) r.code = .ok c' ∧
        r' = linkedRule mem primary secondaries e.source r c')
      (writtenRules primary secondaries) l.rules := by
  refine h.rules.imp ?_
  rintro e r' ⟨prog, r, c', hr, hW⟩
  exact ⟨prog, r, hr, c', hW⟩

/-- What decides a relation for printed and for copied code decides it for the output. -/
theorem eachCode_iff {R : Source → Program → Code → List UInt8 → Prop}
    {P Q : Source → Program → Code → Prop} (h : Output mem table primary secondaries l)
    (hprinted : ∀ {source prog c code}, getProgram primary secondaries source = some prog →
      printCode (links mem primary secondaries source prog) c = .ok code →
        (R source prog c code ↔ P source prog c))
    (hcopied : ∀ {source prog c}, getProgram primary secondaries source = some prog →
      (R source prog c c.bytes ↔ Q source prog c)) :
    EachCode primary secondaries R l ↔ EachWritten primary secondaries P Q := by
  have hpredicates := forall₂_has_iff (R := fun e prog p c' => R e.source prog p.code c')
    (P := fun e prog p => P e.source prog p.code) h.predicateCode HasPredicate.unique
    fun hp hprint => hprinted hp.1 hprint
  have hrules := forall₂_has_iff (R := fun e prog r r' => R e.source prog r.code r'.code)
    (P := fun e prog r => P e.source prog r.code) h.written HasRule.unique (by
      rintro e prog r _ hr ⟨c', hprint, rfl⟩
      exact hprinted hr.1 hprint)
  have hfunctions := forall₂_has_iff (R := fun e prog c c' => R e.source prog c c')
    (P := fun e prog c => Q e.source prog c) (forall₂_functions h) HasFunction.unique (by
      rintro e prog c _ hc rfl
      exact hcopied hc.1)
  constructor
  · intro hR
    exact ⟨hpredicates.mp hR.predicateCode, hrules.mp hR.rules, hfunctions.mp hR.functions⟩
  · intro hP
    exact ⟨hpredicates.mpr hP.predicateCode, hrules.mpr hP.rules, hfunctions.mpr hP.functions⟩

end Meld.Linker
