import Meld.Linker.TraversalRuns

/-!
# The traversal follows the structure

The three loops of the traversal take one instruction after another, each with the code of its own;
what they do between two instructions at the same level is `Advances`. By induction on the structure
of the code, a loop goes over it along its route (`Tree.run`).
-/

namespace Meld.Linker.Traversal

open Lib Lib.Bytes Vm Vm.Bytecode

/-! ### Routes -/

/-- The route of the block of a node. -/
def blockRoute (routes : List (List ℕ)) (b : Option ℕ) : List ℕ := (b.bind (routes[·]?)).getD []

/-- The route of a block is one of the routes. -/
theorem mem_blockRoute {routes : List (List ℕ)} {b : Option ℕ} {j : ℕ}
    (h : j ∈ blockRoute routes b) : ∃ (b : ℕ) (r : List ℕ), routes[b]? = some r ∧ j ∈ r := by
  rw [blockRoute] at h
  cases hr : b.bind (routes[·]?) with
  | none =>
    rw [hr] at h
    cases h
  | some r =>
    obtain ⟨b, -, hb⟩ := Option.bind_eq_some_iff.mp hr
    rw [hr] at h
    exact ⟨b, r, hb, h⟩

/-- The route of the block of the node with the number in the table. -/
def nodeRoute (routes : List (List ℕ)) (table : List (Option ℕ)) (i : ℕ) : List ℕ :=
  (table[i]?.map (blockRoute routes)).getD []

/-- The route of a node is that of its block. -/
theorem nodeRoute_eq {routes : List (List ℕ)} {table : List (Option ℕ)} {i : ℕ} {b : Option ℕ}
    (hb : table[i]? = some b) : nodeRoute routes table i = blockRoute routes b := by
  rw [nodeRoute, hb]
  rfl

/-- What is on the route of a node is on that of a block. -/
theorem mem_nodeRoute {routes : List (List ℕ)} {table : List (Option ℕ)} {i j : ℕ}
    (h : j ∈ nodeRoute routes table i) : ∃ b, j ∈ blockRoute routes b := by
  cases hb : table[i]? with
  | none =>
    rw [nodeRoute, hb] at h
    cases h
  | some b =>
    rw [nodeRoute_eq hb] at h
    exact ⟨b, h⟩

/-- The routes of the nodes, one after another. -/
theorem flatMap_nodeRoute (routes : List (List ℕ)) (table : List (Option ℕ)) :
    (List.range table.length).flatMap (nodeRoute routes table) =
      table.flatMap (blockRoute routes) := by
  induction table with
  | nil => rfl
  | cons b table ih =>
    rw [List.length_cons, List.range_succ_eq_map, List.flatMap_cons, List.flatMap_map,
      List.flatMap_cons, ← ih]
    rfl

mutual

/-- The numbers of the instructions in the order in which the structure says that they are printed,
of code that starts with the instruction `k`. -/
def Tree.route : Tree → ℕ → List ℕ
  | .done, _ => []
  | .instr _ rest, k => k :: rest.route (k + 1)
  | .ifReg _ body rest, k | .iter _ _ _ _ body rest, k =>
    k :: (body.route (k + 1) ++ rest.route (k + 1 + body.heads.length))
  | .resetLinear body rest, k =>
    k :: (body.route (k + 1) ++
      (k + 1 + body.heads.length) :: rest.route (k + 1 + body.heads.length + 1))
  | .select table blocks rest, k =>
    k :: (table.flatMap (blockRoute (blocks.routes (k + 1))) ++
      rest.route (k + 1 + blocks.groups.flatten.length))

/-- The route of each block. -/
def Blocks.routes : Blocks → ℕ → List (List ℕ)
  | .nil, _ => []
  | .cons body _ blocks, k =>
    (body.route k ++ [k + body.heads.length]) :: blocks.routes (k + body.heads.length + 1)

end

/-- The number of instructions at the level of the code itself. -/
def Tree.items : Tree → ℕ
  | .done => 0
  | .instr _ rest | .ifReg _ _ rest | .iter _ _ _ _ _ rest | .resetLinear _ rest
  | .select _ _ rest => rest.items + 1

theorem Tree.items_le : (c : Tree) → c.items ≤ c.heads.length
  | .done => le_rfl
  | .instr _ rest => by
    have := rest.items_le
    simp only [items, heads, List.length_cons]
    omega
  | .ifReg _ body rest | .iter _ _ _ _ body rest | .resetLinear body rest => by
    have := rest.items_le
    simp only [items, heads, List.length_cons, List.length_append]
    omega
  | .select _ _ rest => by
    have := rest.items_le
    simp only [items, heads, List.length_cons, List.length_append]
    omega

theorem Blocks.length_routes : (blocks : Blocks) → (k : ℕ) →
    (blocks.routes k).length = blocks.groups.length
  | .nil, _ => rfl
  | .cons body _ blocks, k => by
    rw [routes, groups, List.length_cons, List.length_cons, blocks.length_routes]

mutual

/-- A route stays in the code. -/
theorem Tree.mem_route : (c : Tree) → {k j : ℕ} → j ∈ c.route k → k ≤ j ∧ j < k + c.heads.length
  | .done, k, j, h => nomatch h
  | .instr _ rest, k, j, h => by
    rw [Tree.heads, List.length_cons]
    rcases List.mem_cons.mp h with rfl | h
    · omega
    · have := rest.mem_route h
      omega
  | .ifReg _ body rest, k, j, h | .iter _ _ _ _ body rest, k, j, h => by
    rw [Tree.heads, List.length_cons, List.length_append]
    rcases List.mem_cons.mp h with rfl | h
    · omega
    rcases List.mem_append.mp h with h | h
    · have := body.mem_route h
      omega
    · have := rest.mem_route h
      omega
  | .resetLinear body rest, k, j, h => by
    rw [Tree.heads, List.length_cons, List.length_append, List.length_cons]
    rcases List.mem_cons.mp h with rfl | h
    · omega
    rcases List.mem_append.mp h with h | h
    · have := body.mem_route h
      omega
    rcases List.mem_cons.mp h with rfl | h
    · omega
    · have := rest.mem_route h
      omega
  | .select table blocks rest, k, j, h => by
    rw [Tree.heads, List.length_cons, List.length_append]
    rcases List.mem_cons.mp h with rfl | h
    · omega
    rcases List.mem_append.mp h with h | h
    · obtain ⟨b, -, h⟩ := List.mem_flatMap.mp h
      obtain ⟨b, r, hr, h⟩ := mem_blockRoute h
      have := blocks.mem_routes hr h
      omega
    · have := rest.mem_route h
      omega

theorem Blocks.mem_routes : (blocks : Blocks) → {k b j : ℕ} → {r : List ℕ} →
    (blocks.routes k)[b]? = some r → j ∈ r → k ≤ j ∧ j < k + blocks.groups.flatten.length
  | .nil, k, b, j, r, hr, h => nomatch hr
  | .cons body jump blocks, k, b, j, r, hr, h => by
    rw [Blocks.groups, List.flatten_cons, List.length_append, List.length_append,
      List.length_singleton]
    cases b with
    | zero =>
      cases hr
      rcases List.mem_append.mp h with h | h
      · have := body.mem_route h
        omega
      · rw [List.mem_singleton.mp h]
        omega
    | succ b =>
      have := blocks.mem_routes hr h
      omega

end

/-! ### Loops -/

/-- Between two instructions of its level, a loop does what it goes on with: it takes the next
instruction when the last is not the end of a block, and stands before the instruction `stop`. -/
def Advances {β : Type} (links : Links) (L : List Head) (visit : ℕ → Tape → Exec (ℕ × Tape))
    (loop : ℕ → ℕ → Tape → Exec β) (stop : ℕ) : Prop :=
  ∀ {n k k' : ℕ} {h : Head} {ks : List ℕ} {t : Tape}, k < stop → L[k]? = some h → ¬Closing h →
    Shaped L t.code → (∀ j ∈ ks, j < L.length) →
    visit (address L k) t = ks.foldlM (step links L) t >>= (fun t' => .ok (address L k', t')) →
    loop (n + 1) (address L k) t =
      ks.foldlM (step links L) t >>= fun t' => loop n (address L k') t'

variable {L : List Head} {links : Links} {visit : ℕ → Tape → Exec (ℕ × Tape)} {k stop : ℕ}

/-- The addresses go up. -/
theorem address_lt (hlt : k < stop) (hle : stop ≤ L.length) : address L k < address L stop := by
  have hget := List.getElem?_eq_getElem (hlt.trans_le hle)
  have hmono : address L (k + 1) ≤ address L stop := by
    have hsub : (L.drop (k + 1)).take (stop - (k + 1)) <+: L.drop (k + 1) := List.take_prefix _ _
    have hadd := address_add hsub
    rw [List.length_take, List.length_drop, Nat.min_eq_left (by omega),
      show k + 1 + (stop - (k + 1)) = stop by omega] at hadd
    omega
  have := address_succ hget
  have := bytes_pos L[k]
  omega

/-- The loop up to an address. -/
theorem advances_printUntil (hle : stop ≤ L.length) :
    Advances links L visit (printUntil visit (address L stop)) stop := by
  intro n k k' h ks t hk hget hopen ht hks hvisit
  rw [printUntil, if_pos (address_lt hk hle), hvisit, bind_assoc]
  rfl

/-- The loop up to an END LINEAR. -/
theorem advances_printUntilEndLinear (hL : Lays L) :
    Advances links L visit (printUntilEndLinear visit) stop := by
  intro n k k' h ks t hk hget hopen ht hks hvisit
  rw [printUntilEndLinear, hvisit, bind_assoc]
  refine bind_congr_ok fun t' hrun => ?_
  have hfetch := (ht.of_foldlM hL hks hrun).fetch_eq hget
  rw [ok_bind]
  dsimp only
  rw [hfetch, ok_bind, if_neg fun hop => hopen (.inl hop)]

/-- The loop up to a RETURN SELECT. -/
theorem advances_printUntilReturnSelect (hL : Lays L) :
    Advances links L visit (printUntilReturnSelect visit) stop := by
  intro n k k' h ks t hk hget hopen ht hks hvisit
  rw [printUntilReturnSelect, hvisit, bind_assoc]
  refine bind_congr_ok fun t' hrun => ?_
  have hfetch := (ht.of_foldlM hL hks hrun).fetch_eq hget
  rw [ok_bind]
  dsimp only
  rw [hfetch, ok_bind, if_neg fun hop => hopen (.inr hop)]

/-! ### What the parts of the code leave room for -/

/-- Code inside of a program is not too long for its fields. -/
theorem size_lt_of_sub {l : List Head} (hL : Lays L) (hsub : l <+: L.drop k) :
    size l < 2 ^ 32 := by
  obtain ⟨post, hpost⟩ := hsub
  have hsize : size L = size (L.take k) + (size l + size post) := by
    rw [← size_append l, hpost, ← size_append, List.take_append_drop]
  have := hL.size
  omega

/-- Sizes of parts of the code fit a jump. -/
theorem toNat_jump {h : Head} {l : List Head} {x : ℕ} (hL : Lays L) (hsub : h :: l <+: L.drop k)
    (hx : x ≤ h.bytes.length + size l) : (UInt32.ofNat x).toNat = x := by
  have hlt := size_lt_of_sub hL hsub
  rw [size_cons] at hlt
  exact UInt32.toNat_ofNat_of_lt' (hx.trans_lt hlt)

/-- The jump over code of its own. -/
theorem address_jump {h : Head} {l : List Head} {x : ℕ} (hL : Lays L) (hsub : h :: l <+: L.drop k)
    (hx : x = h.bytes.length + size l) :
    address L (k + 1 + l.length) = address L k + (UInt32.ofNat x).toNat := by
  have hadd := address_add hsub
  rw [size_cons] at hadd
  rw [toNat_jump hL hsub hx.le, hx, ← hadd, List.length_cons]
  congr 1
  omega

/-- One more instruction, and what the loop does behind it. -/
theorem Advances.cons {β : Type} {loop : ℕ → ℕ → Tape → Exec β} {n m k' k'' : ℕ} {h : Head}
    {ks ks' : List ℕ} {t : Tape} (hadv : Advances links L visit loop stop) (hL : Lays L)
    (hk : k < stop) (hget : L[k]? = some h) (hopen : ¬Closing h) (ht : Shaped L t.code)
    (hks : ∀ j ∈ ks, j < L.length)
    (hvisit : visit (address L k) t =
      ks.foldlM (step links L) t >>= fun t' => .ok (address L k', t'))
    (hrest : ∀ t', Shaped L t'.code → loop n (address L k') t' =
      ks'.foldlM (step links L) t' >>= fun t'' => loop m (address L k'') t'') :
    loop (n + 1) (address L k) t =
      (ks ++ ks').foldlM (step links L) t >>= fun t'' => loop m (address L k'') t'' := by
  rw [hadv hk hget hopen ht hks hvisit, List.foldlM_append, bind_assoc]
  exact bind_congr_ok fun t' hrun => hrest t' (ht.of_foldlM hL hks hrun)

/-- The instruction that ends a block without a code of its own. -/
theorem visit_closing {h : Head} {fuel : ℕ} {t : Tape} (hL : Lays L) (ht : Shaped L t.code)
    (hk : L[k]? = some h) (hclosing : Closing h) :
    instrPrint links (fuel + 1) true (address L k) t =
      step links L t k >>= fun t' => .ok (address L (k + 1), t') := by
  refine visit_leaf hL ht hk ?_
  rcases hclosing with hop | hop <;> rw [hop] <;> decide

/-- The loop prints the END LINEAR that it stops at. -/
theorem printUntilEndLinear_closing {fuel n : ℕ} {t : Tape} (hL : Lays L) (ht : Shaped L t.code)
    (hk : L[k]? = some .endLinear) :
    printUntilEndLinear (instrPrint links (fuel + 1) true) (n + 1) (address L k) t =
      step links L t k >>= fun t' => .ok (address L k, t') := by
  have hlt := (List.getElem?_eq_some_iff.mp hk).1
  rw [printUntilEndLinear, visit_closing hL ht hk (.inl rfl), bind_assoc]
  refine bind_congr_ok fun t' hrun => ?_
  rw [ok_bind]
  dsimp only
  rw [(ht.of_step hL hlt hrun).fetch_eq hk]
  rfl

/-- The loop prints the RETURN SELECT that it stops at. -/
theorem printUntilReturnSelect_closing {fuel n : ℕ} {t : Tape} {jump : UInt32} (hL : Lays L)
    (ht : Shaped L t.code) (hk : L[k]? = some (.returnSelect jump)) :
    printUntilReturnSelect (instrPrint links (fuel + 1) true) (n + 1) (address L k) t =
      step links L t k := by
  have hlt := (List.getElem?_eq_some_iff.mp hk).1
  rw [printUntilReturnSelect, visit_closing hL ht hk (.inr rfl), bind_assoc]
  conv_rhs => rw [← bind_pure (step links L t k)]
  refine bind_congr_ok fun t' hrun => ?_
  rw [ok_bind]
  dsimp only
  rw [(ht.of_step hL hlt hrun).fetch_eq hk]
  rfl

theorem foldlM_one {α β : Type} (f : β → α → Exec β) (b : β) (a : α) : [a].foldlM f b = f b a := by
  rw [List.foldlM_cons]
  exact bind_pure _

/-- A loop up to an address ends there. -/
theorem printUntil_of_run {fuel items a b : ℕ} {t : Tape} {x : Exec Tape} (hfuel : items < fuel)
    (hrun : ∀ n, printUntil visit b (n + items) a t =
      x >>= fun t' => printUntil visit b n b t') :
    printUntil visit b fuel a t = x >>= fun t' => .ok (b, t') := by
  have hrun := hrun (fuel - items)
  rw [Nat.sub_add_cancel hfuel.le] at hrun
  rw [hrun]
  refine bind_congr_ok fun t' _ => ?_
  obtain ⟨n, hn⟩ := Nat.exists_eq_add_of_le' (Nat.sub_pos_of_lt hfuel)
  rw [hn, printUntil, if_neg (lt_irrefl b)]
  rfl

/-- The table follows the nine bytes of a SELECT. -/
theorem length_select (size : UInt32) (table : List UInt32) :
    (Head.select size table).bytes.length = 9 + 4 * table.length := by
  have htable : (table.flatMap fun e => le 4 e.toNat).length = 4 * table.length := by
    induction table with
    | nil => rfl
    | cons e table ih =>
      rw [List.flatMap_cons, List.length_append, length_le, ih, List.length_cons]
      omega
  simp only [Head.bytes, List.length_append, length_le, List.length_singleton, htable]

/-- The offsets of the blocks. -/
theorem size_take_le (groups : List (List Head)) (b : ℕ) :
    size (groups.take b).flatten ≤ size groups.flatten := by
  conv_rhs => rw [← List.take_append_drop b groups, List.flatten_append, size_append]
  exact Nat.le_add_right ..

/-! ### Runs -/

mutual

/-- A loop goes over code along its route. -/
theorem Tree.run (hL : Lays L) : (c : Tree) → {β : Type} → {loop : ℕ → ℕ → Tape → Exec β} →
    {k stop fuel n : ℕ} → {t : Tape} → c.Tabled → c.heads <+: L.drop k →
    k + c.heads.length ≤ stop → stop ≤ L.length → c.heads.length < fuel →
    Advances links L (instrPrint links fuel true) loop stop → Shaped L t.code →
    loop (n + c.items) (address L k) t = (c.route k).foldlM (step links L) t >>=
      fun t' => loop n (address L (k + c.heads.length)) t'
  | .done, _, loop, k, stop, fuel, n, t, htab, hsub, hstop, hle, hfuel, hadv, ht => rfl
  | .instr i rest, _, loop, k, stop, fuel, n, t, htab, hsub, hstop, hle, hfuel, hadv, ht => by
    simp only [Tree.heads, List.length_cons] at hsub hstop hfuel ⊢
    obtain ⟨hget, hrest⟩ := prefix_cons hsub
    obtain ⟨fuel, rfl⟩ := Nat.exists_eq_add_of_le' (Nat.zero_lt_of_lt hfuel)
    have hopen : ¬Closing (.instr i) := by
      cases i <;> simp [Closing, opcode]
    have hvisit : instrPrint links (fuel + 1) true (address L k) t =
        [k].foldlM (step links L) t >>= fun t' => .ok (address L (k + 1), t') := by
      rw [foldlM_one]
      exact visit_leaf hL ht hget (by cases i <;> simp [opcode])
    refine hadv.cons (n := n + rest.items) hL (by omega) hget hopen ht
      (fun j hj => by rw [List.mem_singleton.mp hj]; omega) hvisit fun t' ht' => ?_
    rw [rest.run hL htab hrest (by omega) hle (by omega) hadv ht',
      show k + 1 + rest.heads.length = k + (rest.heads.length + 1) by omega]
  | .ifReg reg body rest, _, loop, k, stop, fuel, n, t, ⟨htab, htab'⟩, hsub, hstop, hle, hfuel,
      hadv, ht => by
    simp only [Tree.heads, List.length_cons, List.length_append] at hsub hstop hfuel ⊢
    obtain ⟨hget, hparts⟩ := prefix_cons hsub
    obtain ⟨hbody, hrest⟩ := prefix_append hparts
    obtain ⟨fuel, rfl⟩ := Nat.exists_eq_add_of_le' (Nat.zero_lt_of_lt hfuel)
    have hhead := (prefix_append (l := _ :: body.heads) hsub).1
    have hlen : ∀ jump, (Head.ifReg reg jump).bytes.length = 6 := fun jump => by simp [Head.bytes]
    have hjump := address_jump hL hhead (by rw [hlen] : 6 + size body.heads = _)
    have hvisit : instrPrint links (fuel + 1) true (address L k) t =
        (k :: body.route (k + 1)).foldlM (step links L) t >>= fun t' =>
          .ok (address L (k + 1 + body.heads.length), t') := by
      refine visit_ifReg hL ht hget hjump ?_ fun t' ht' => ?_
      · rw [toNat_jump hL hhead (by rw [hlen])]
        exact Nat.le_add_right ..
      · -- the body is printed up to the address that the head names
        exact printUntil_of_run (body.items_le.trans_lt (by omega)) fun n =>
          body.run hL htab hbody le_rfl (by omega) (by omega)
            (advances_printUntil (by omega)) ht'
    refine hadv.cons (n := n + rest.items) hL (by omega) hget (by simp [Closing, opcode]) ht
      (fun j hj => ?_) hvisit fun t' ht' => ?_
    · rcases List.mem_cons.mp hj with rfl | hj
      · omega
      · have := body.mem_route hj
        omega
    · rw [rest.run hL htab' hrest (by omega) hle (by omega) hadv ht',
        show k + 1 + body.heads.length + rest.heads.length =
          k + (body.heads.length + rest.heads.length + 1) by omega]
  | .iter pred options argument ms body rest, _, loop, k, stop, fuel, n, t, ⟨htab, htab'⟩, hsub,
      hstop, hle, hfuel, hadv, ht => by
    simp only [Tree.heads, List.length_cons, List.length_append] at hsub hstop hfuel ⊢
    obtain ⟨hget, hparts⟩ := prefix_cons hsub
    obtain ⟨hbody, hrest⟩ := prefix_append hparts
    obtain ⟨fuel, rfl⟩ := Nat.exists_eq_add_of_le' (Nat.zero_lt_of_lt hfuel)
    have hhead := (prefix_append (l := _ :: body.heads) hsub).1
    have hlen : ∀ jump, (Head.iter pred options argument jump ms).bytes.length =
        8 + (matchBytes ms).length := fun jump => by simp [Head.bytes]; omega
    have hjump := address_jump hL hhead (by rw [hlen] : 8 + (matchBytes ms).length +
      size body.heads = _)
    have hvisit : instrPrint links (fuel + 1) true (address L k) t =
        (k :: body.route (k + 1)).foldlM (step links L) t >>= fun t' =>
          .ok (address L (k + 1 + body.heads.length), t') :=
      visit_iter hL ht hget hjump fun t' ht' =>
        -- the loop over the body stops at the address behind it
        printUntil_of_run (body.items_le.trans_lt (by omega)) fun n =>
          body.run hL htab hbody le_rfl (by omega) (by omega)
            (advances_printUntil (by omega)) ht'
    refine hadv.cons (n := n + rest.items) hL (by omega) hget (by simp [Closing, opcode]) ht
      (fun j hj => ?_) hvisit fun t' ht' => ?_
    · rcases List.mem_cons.mp hj with rfl | hj
      · omega
      · have := body.mem_route hj
        omega
    · rw [rest.run hL htab' hrest (by omega) hle (by omega) hadv ht',
        show k + 1 + body.heads.length + rest.heads.length =
          k + (body.heads.length + rest.heads.length + 1) by omega]
  | .resetLinear body rest, _, loop, k, stop, fuel, n, t, ⟨htab, htab'⟩, hsub, hstop, hle, hfuel,
      hadv, ht => by
    simp only [Tree.heads, List.length_cons, List.length_append] at hsub hstop hfuel ⊢
    obtain ⟨hget, hparts⟩ := prefix_cons hsub
    obtain ⟨hbody, hend⟩ := prefix_append hparts
    obtain ⟨hend, hrest⟩ := prefix_cons hend
    obtain ⟨fuel, rfl⟩ := Nat.exists_eq_add_of_le' (Nat.zero_lt_of_lt hfuel)
    have hks : ∀ j ∈ body.route (k + 1) ++ [k + 1 + body.heads.length], j < L.length := by
      -- the loop over the body stops behind its END LINEAR, which it prints
      intro j hj
      rcases List.mem_append.mp hj with hj | hj
      · have := body.mem_route hj
        omega
      · rw [List.mem_singleton.mp hj]
        omega
    have hvisit : instrPrint links (fuel + 1) true (address L k) t =
        (k :: (body.route (k + 1) ++ [k + 1 + body.heads.length])).foldlM (step links L) t >>=
          fun t' => .ok (address L (k + 1 + body.heads.length + 1), t') := by
      refine visit_resetLinear hL ht hget hend hks fun t' ht' => ?_
      have hitems := body.items_le
      obtain ⟨f, hf⟩ := Nat.exists_eq_add_of_le' (by omega : body.items + 1 ≤ fuel)
      have hrun := body.run (n := f + 1) hL htab hbody le_rfl (by omega)
        (by omega : body.heads.length < fuel)
        (advances_printUntilEndLinear hL : Advances links L _ _ _) ht'
      rw [show f + 1 + body.items = fuel by omega] at hrun
      rw [hrun, List.foldlM_append, bind_assoc]
      refine bind_congr_ok fun t'' hbodyrun => ?_
      have ht'' := ht'.of_foldlM hL (fun j hj => hks j (List.mem_append_left _ hj)) hbodyrun
      obtain ⟨f', rfl⟩ := Nat.exists_eq_add_of_le' (by omega : 1 ≤ fuel)
      rw [printUntilEndLinear_closing hL ht'' hend, foldlM_one]
    have hroute : (Tree.resetLinear body rest).route k =
        (k :: (body.route (k + 1) ++ [k + 1 + body.heads.length])) ++
          rest.route (k + 1 + body.heads.length + 1) := by
      rw [Tree.route, List.cons_append, List.append_assoc]
      rfl
    rw [hroute]
    refine hadv.cons (n := n + rest.items) hL (by omega) hget (by simp [Closing, opcode]) ht
      (fun j hj => ?_) hvisit fun t' ht' => ?_
    · rcases List.mem_cons.mp hj with rfl | hj
      · omega
      · exact hks j hj
    · rw [rest.run hL htab' hrest (by omega) hle (by omega) hadv ht',
        show k + 1 + body.heads.length + 1 + rest.heads.length =
          k + (body.heads.length + (rest.heads.length + 1) + 1) by omega]
  | .select table blocks rest, _, loop, k, stop, fuel, n, t, ⟨htab, htab', htab''⟩, hsub, hstop,
      hle, hfuel, hadv, ht => by
    simp only [Tree.heads, List.length_cons, List.length_append] at hsub hstop hfuel ⊢
    obtain ⟨hget, hparts⟩ := prefix_cons hsub
    obtain ⟨hblocks, hrest⟩ := prefix_append hparts
    obtain ⟨fuel, rfl⟩ := Nat.exists_eq_add_of_le' (Nat.zero_lt_of_lt hfuel)
    have hhead := (prefix_append (l := _ :: blocks.groups.flatten) hsub).1
    have hlen : ∀ s, (Head.select s (table.map (entry blocks.groups))).bytes.length =
        9 + 4 * table.length := fun s => by
      rw [length_select, List.length_map]
    have hjump := address_jump hL hhead (by rw [hlen] : 9 + 4 * table.length +
      size blocks.groups.flatten = _)
    have hmem : ∀ b, ∀ j ∈ blockRoute (blocks.routes (k + 1)) b,
        k + 1 ≤ j ∧ j < k + 1 + blocks.groups.flatten.length := fun b j hj => by
      obtain ⟨b, r, hr, hj⟩ := mem_blockRoute hj
      exact blocks.mem_routes hr hj
    have hvisit : instrPrint links (fuel + 1) true (address L k) t =
        (k :: (List.range (table.map (entry blocks.groups)).length).flatMap
          (nodeRoute (blocks.routes (k + 1)) table)).foldlM (step links L) t >>= fun t' =>
            .ok (address L (k + 1 + blocks.groups.flatten.length), t') := by
      -- a node that has no block is left out, and the others print their blocks
      refine visit_select hL ht hget hjump (fun i j hj => ?_) fun i e hi => ?_
      · obtain ⟨b, hj⟩ := mem_nodeRoute hj
        have := hmem b j hj
        omega
      · rw [List.getElem?_map] at hi
        obtain ⟨b, hb, rfl⟩ := Option.map_eq_some_iff.mp hi
        rw [nodeRoute_eq hb]
        cases b with
        | none =>
          rw [entry, if_pos rfl]
          rfl
        | some b =>
          have hlt := htab b (List.mem_of_getElem? hb)
          -- the entry of a block is its offset from the end of the table, plus one
          rw [← blocks.length_routes (k + 1)] at hlt
          have hr := List.getElem?_eq_getElem hlt
          have hroute : blockRoute (blocks.routes (k + 1)) (some b) =
              (blocks.routes (k + 1))[b] := by
            rw [blockRoute, Option.bind_some, hr]
            rfl
          have hentry := toNat_jump (x := size (blocks.groups.take b).flatten + 1) hL hhead (by
            have := size_take_le blocks.groups b
            rw [hlen]
            omega)
          have hnext := address_succ hget
          rw [hlen] at hnext
          rw [if_neg (fun hzero => by
            have := congrArg UInt32.toNat hzero
            rw [entry, hentry] at this
            cases this), hroute]
          intro t' ht'
          have hrun : printUntilReturnSelect (instrPrint links fuel true) fuel
              (address L (k + 1) + size (blocks.groups.take b).flatten) t' =
                (blocks.routes (k + 1))[b].foldlM (step links L) t' :=
            blocks.run hL htab' hblocks (by omega) (by omega) hr ht'
          have haddress : address L k + 9 + table.length * 4 +
              (size (blocks.groups.take b).flatten + 1) - 1 =
                address L (k + 1) + size (blocks.groups.take b).flatten := by
            rw [hnext]
            omega
          rw [← hrun, entry, hentry, List.length_map, haddress]
    rw [List.length_map, flatMap_nodeRoute] at hvisit
    refine hadv.cons (n := n + rest.items) hL (by omega) hget (by simp [Closing, opcode]) ht
      (fun j hj => ?_) hvisit fun t' ht' => ?_
    · rcases List.mem_cons.mp hj with rfl | hj
      · omega
      · obtain ⟨b, -, hj⟩ := List.mem_flatMap.mp hj
        have := hmem b j hj
        omega
    · rw [rest.run hL htab'' hrest (by omega) hle (by omega) hadv ht',
        show k + 1 + blocks.groups.flatten.length + rest.heads.length =
          k + (blocks.groups.flatten.length + rest.heads.length + 1) by omega]

theorem Blocks.run (hL : Lays L) : (blocks : Blocks) → {k fuel b : ℕ} → {r : List ℕ} →
    {t : Tape} → blocks.Tabled → blocks.groups.flatten <+: L.drop k →
    k + blocks.groups.flatten.length ≤ L.length → blocks.groups.flatten.length < fuel →
    (blocks.routes k)[b]? = some r → Shaped L t.code →
    printUntilReturnSelect (instrPrint links fuel true) fuel
      (address L k + size (blocks.groups.take b).flatten) t = r.foldlM (step links L) t
  | .nil, k, fuel, b, r, t, htab, hsub, hle, hfuel, hr, ht => nomatch hr
  | .cons body jump blocks, k, fuel, b, r, t, ⟨htab, htab'⟩, hsub, hle, hfuel, hr, ht => by
    simp only [Blocks.groups, List.flatten_cons, List.length_append, List.length_singleton]
      at hsub hle hfuel ⊢
    obtain ⟨hgroup, hrest⟩ := prefix_append hsub
    obtain ⟨hbody, hend⟩ := prefix_append hgroup
    rw [List.length_append, List.length_singleton, ← Nat.add_assoc] at hrest
    cases b with
    | zero =>
      cases hr
      rw [List.take_zero, List.flatten_nil, show size [] = 0 from rfl, Nat.add_zero,
        List.foldlM_append]
      have hitems := body.items_le
      obtain ⟨f, hf⟩ := Nat.exists_eq_add_of_le' (by omega : body.items + 1 ≤ fuel)
      have hrun := body.run (n := f + 1) hL htab hbody le_rfl (by omega)
        (by omega : body.heads.length < fuel)
        (advances_printUntilReturnSelect hL : Advances links L _ _ _) ht
      rw [show f + 1 + body.items = fuel by omega] at hrun
      rw [hrun]
      refine bind_congr_ok fun t' hbodyrun => ?_
      have ht' := ht.of_foldlM hL (fun j hj => by have := body.mem_route hj; omega) hbodyrun
      obtain ⟨f', rfl⟩ := Nat.exists_eq_add_of_le' (by omega : 1 ≤ fuel)
      rw [foldlM_one]
      exact printUntilReturnSelect_closing hL ht' (getElem?_of_sub hend)
    | succ b =>
      have haddress := address_add hgroup
      rw [List.length_append, List.length_singleton, ← Nat.add_assoc] at haddress
      rw [List.take_succ_cons, List.flatten_cons, size_append, ← Nat.add_assoc, ← haddress]
      exact blocks.run hL htab' hrest (by omega) (by omega) hr ht

end

/-! ### Printing code -/

/-- The numbers of the instructions that printing visits are those of the code. -/
theorem Tree.route_lt (c : Tree) : ∀ j ∈ c.route 0, j < c.heads.length := fun j hj => by
  have := c.mem_route hj
  omega

/-- The printing of code prints along the route. -/
theorem instrsPrint_eq {c : Tree} {fuel : ℕ} (hL : Lays c.heads) (htab : c.Tabled)
    (hfuel : c.heads.length < fuel) :
    instrsPrint (instrPrint links fuel true) fuel 0 c.bytes.length ⟨c.bytes, []⟩ =
      (c.route 0).foldlM (step links c.heads) ⟨c.bytes, []⟩ >>= fun t =>
        .ok (c.bytes.length, t) := by
  have hend : address c.heads c.heads.length = c.bytes.length := by
    rw [address, List.take_length]
    rfl
  have hstop : address c.heads (0 + c.heads.length) = address c.heads c.heads.length := by
    rw [Nat.zero_add]
  rw [instrsPrint, Nat.zero_add, ← hend]
  refine printUntil_of_run (c.items_le.trans_lt hfuel) fun n => ?_
  have hrun := c.run (n := n) (t := ⟨c.bytes, []⟩) hL htab List.prefix_rfl (Nat.zero_add _).le
    le_rfl hfuel (advances_printUntil le_rfl : Advances links c.heads _ _ _) (shaped_bytes c.heads)
  rwa [hstop] at hrun

end Meld.Linker.Traversal
