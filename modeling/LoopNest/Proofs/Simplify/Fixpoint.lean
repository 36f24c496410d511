import LoopNest.Proofs.Contract.Simplify

/-!
# Rounds that change nothing

A round that drops no allocation leaves nothing to do: expressions are in normal form after one
round, every loop and every guard that can go has gone, and what is left of the allocations is read.
Each earlier round drops an allocation, so a kernel with fewer than `n` of them is settled after `n`
rounds (`Proc.simplifyRounds_settles`). Simplification makes 32 rounds. It is therefore idempotent
on kernels with fewer than 32 allocations, and in general just where the 33rd round would change
nothing (`Proc.simplify_simplify_iff`). There are kernels where it does: in `relay` each buffer is
read only to write the next one, and a round drops the last of them.
-/

namespace LoopNest

open Block

variable {b : Block} {p : Proc}

/-! ## Expressions -/

namespace Expr

/-- Folding leaves a negation alone unless it is one of a number or of a negation. -/
def negFixed : Expr → Bool
  | .int n => (Word.neg? n).isNone
  | .neg _ => false
  | _ => true

/-- No operator of the expression can be folded. -/
def Folded : Expr → Prop
  | .binary op l r => l.Folded ∧ r.Folded ∧ foldBinary op l r = .binary op l r
  | .neg e => e.Folded ∧ e.negFixed = true
  | _ => True

theorem fold_of_folded {e : Expr} (h : e.Folded) : e.fold = e := by
  induction e with
  | binary op l r ihl ihr => rw [fold, ihl h.1, ihr h.2.1, h.2.2]
  | neg e ih =>
    rw [fold, ih h.1]
    have hfixed := h.2
    cases e with
    | int n =>
      rw [negFixed, Option.isNone_iff_eq_none] at hfixed
      simp only [hfixed]
    | neg e => cases hfixed
    | _ => rfl
  | _ => rfl

theorem folded_foldBinary {op : Op} {l r : Expr} (hl : l.Folded) (hr : r.Folded) :
    (foldBinary op l r).Folded := by
  have hf := folds_foldBinary op l r
  generalize hfold : foldBinary op l r = e at hf
  cases hf with
  | kept => exact ⟨hl, hr, hfold⟩
  | zero_add | one_mul => exact hr
  | add_zero | sub_zero | mul_one | div_one => exact hl
  | _ => trivial

theorem folded_fold (e : Expr) : e.fold.Folded := by
  induction e with
  | binary op l r ihl ihr => exact folded_foldBinary ihl ihr
  | neg e ih =>
    rw [fold]
    cases he : e.fold with
    | int n =>
      cases hn : Word.neg? n with
      | some m => simp only [hn, Folded]
      | none => simp [hn, Folded, negFixed]
    | neg inner => exact (he ▸ ih).1
    | _ => exact ⟨he ▸ ih, rfl⟩
  | _ => trivial

/-- The canonical expression of an affine form is the one simplification gives; other expressions
are folded once and for all. -/
theorem simplifyIndex_simplifyIndex (e : Expr) :
    e.simplifyIndex.simplifyIndex = e.simplifyIndex := by
  cases h : Affine.ofExpr? e.fold with
  | some a =>
    have hsimp : e.simplifyIndex = a.toExpr := by rw [simplifyIndex, h]
    have hform : Affine.ofExpr? a.toExpr.fold = some a :=
      Affine.ofExpr?_fold (Affine.ofExpr?_toExpr (Affine.ofExpr?_normal h))
    rw [hsimp, simplifyIndex, hform]
  | none =>
    have hsimp : e.simplifyIndex = e.fold := by rw [simplifyIndex, h]
    rw [hsimp, simplifyIndex, fold_of_folded (folded_fold e), h]

theorem simplifyData_simplifyData (e : Expr) : e.simplifyData.simplifyData = e.simplifyData := by
  induction e with
  | read b idx => simp [simplifyData, simplifyIndex_simplifyIndex]
  | binary op l r ihl ihr => simp only [simplifyData, ihl, ihr]
  | neg e ih => simp only [simplifyData, ih]
  | _ => rfl

theorem simplifyCondition_simplifyCondition (e : Expr) :
    e.simplifyCondition.simplifyCondition = e.simplifyCondition := by
  fun_induction simplifyCondition e with
  | case1 l r ihl ihr => rw [simplifyCondition, ihl, ihr]
  | case2 op l r hop hcomp =>
    rw [simplifyCondition.eq_2 _ _ _ hop, if_pos hcomp, simplifyIndex_simplifyIndex,
      simplifyIndex_simplifyIndex]
  | case3 op l r hop hcomp => rw [simplifyCondition.eq_2 _ _ _ hop, if_neg hcomp]
  | case4 e h h' => rw [simplifyCondition.eq_3 _ h h']

@[simp] theorem zeroVars_nil (e : Expr) : e.zeroVars [] = e :=
  rebuild_eq_self fun _ _ => rfl

end Expr

theorem Window.mapExprs_mapExprs (f g : Expr → Expr) (w : Window) :
    (w.mapExprs g).mapExprs f = w.mapExprs fun e => f (g e) := by
  have hdim : ∀ d : WindowDim, (d.mapExprs g).mapExprs f = d.mapExprs fun e => f (g e) := by
    intro d
    cases d <;> rfl
  simp [Window.mapExprs, hdim]

/-! ## Allocations that are left -/

namespace Block

theorem allocated_append (b b' : Block) : allocated (b ++ b') = allocated b ++ allocated b' := by
  rw [allocated, Block.nested, Stmt.nestedAll_append, List.filterMap_append]
  rfl

theorem allocated_singleton (s : Stmt) :
    allocated [s] = s.declared ++ (s.body?.map allocated).getD [] := by
  rw [allocated_cons]
  simp [allocated, Block.nested, Stmt.nestedAll]

theorem hasAlloc_eq_false_iff : b.hasAlloc = false ↔ b.flatMap (·.declared) = [] := by
  refine ⟨fun h => declared_of_not_hasAlloc (by rw [h]; rfl), fun h => ?_⟩
  rw [hasAlloc, List.any_eq_false]
  intro s hs
  simpa [Stmt.declared] using List.flatMap_eq_nil_iff.1 h s hs

end Block

/-- The statements that stay hold all allocations. -/
theorem Stmt.allocated_withoutStore (gone : List String) (b : Block) :
    allocated (flatMapAll (·.withoutStore gone) b) = b.allocated := by
  induction b using Block.induction with
  | nil => rfl
  | cons s rest ihs ihrest =>
    rw [flatMapAll, Block.allocated_append, Block.allocated_cons s, ← List.append_assoc, ihrest]
    congr 1
    cases s with
    | loop hd body | guard e body => exact (Block.allocated_singleton _).trans (ihs body rfl)
    | store u b idx rhs =>
      rw [flatMap, withoutStore]
      split <;> rfl
    | alloc d | call t args => rfl

theorem allocated_dropDead_sublist (gone : List String) (b : Block) :
    (allocated (dropDead gone b)).Sublist b.allocated := by
  induction b generalizing gone with
  | nil => exact .refl _
  | cons s rest ih =>
    have hkeep : (allocated (s.flatMap (·.withoutStore gone) ++ dropDead gone rest)).Sublist
        (allocated (s :: rest)) := by
      have hs := Stmt.allocated_withoutStore gone [s]
      rw [Stmt.flatMapAll, Stmt.flatMapAll, List.append_nil] at hs
      rw [Block.allocated_append, hs, show s :: rest = [s] ++ rest from rfl, Block.allocated_append]
      exact (ih gone).append_left _
    cases s with
    | alloc d =>
      rw [dropDead]
      split
      · exact hkeep
      · exact (ih _).trans (List.sublist_cons_self _ _)
    | _ => exact hkeep

/-- Without a dropped allocation, no write is dropped either. -/
theorem dropDead_eq_self (h : allocated (dropDead [] b) = b.allocated) : dropDead [] b = b := by
  induction b with
  | nil => rfl
  | cons s rest ih =>
    have hkeep (hs : dropDead [] (s :: rest) = s :: dropDead [] rest) :
        dropDead [] (s :: rest) = s :: rest := by
      rw [hs, Block.allocated_cons, Block.allocated_cons, List.append_cancel_left_eq,
        List.append_cancel_left_eq] at h
      rw [hs, ih h]
    have hs : s.flatMap (·.withoutStore []) = [s] := by
      simpa [Stmt.flatMapAll] using Stmt.flatMapAll_withoutStore_nil [s]
    cases s with
    | alloc d =>
      by_cases hread : (Block.nested (Stmt.flatMapAll (·.withoutStore []) rest)).any
          (·.readsHere d.name) = true
      · exact hkeep (by rw [dropDead, if_pos hread])
      · -- a dropped allocation would be missing from the count
        rw [dropDead, if_neg hread] at h
        have hle := (allocated_dropDead_sublist [d.name] rest).length_le
        rw [h] at hle
        exact absurd hle (Nat.not_succ_le_self _)
    | _ => exact hkeep (congrArg (· ++ dropDead [] rest) hs)

theorem Stmt.allocated_simplifyAll_sublist (rs : Ranges) (zeros : List String) (b : Block) :
    (allocated (simplifyAll rs zeros b)).Sublist b.allocated := by
  induction b using Block.induction generalizing rs zeros with
  | nil => exact .refl _
  | cons s rest ihs ihrest =>
    rw [simplifyAll, Block.allocated_append, show s :: rest = [s] ++ rest from rfl,
      Block.allocated_append]
    refine List.Sublist.append ?_ (ihrest rs zeros)
    rw [Block.allocated_singleton]
    have h := simplified_simplify rs zeros s
    generalize s.simplify rs zeros = b' at h
    cases h with
    | never | idle | refuted | vacuous => exact List.nil_sublist _
    | once | granted => exact ihs _ rfl _ _
    | loop _ hbody | guard hbody =>
      subst hbody
      rw [Block.allocated_singleton]
      exact (allocated_dropDead_sublist _ _).trans (ihs _ rfl _ _)
    | store | alloc | call => exact .refl _

/-! ## Rounds that keep all allocations -/

namespace Stmt

theorem simplifyAll_append (rs : Ranges) (zeros : List String) (b b' : Block) :
    simplifyAll rs zeros (b ++ b') = simplifyAll rs zeros b ++ simplifyAll rs zeros b' := by
  induction b with
  | nil => rfl
  | cons s b ih => rw [List.cons_append, simplifyAll, simplifyAll, ih, List.append_assoc]

variable {rs : Ranges} {body : Block} {zeros : List String}

/-- A loop in its simplest form. -/
theorem simplify_loop_eq_self {hd : Header} (hbound : hd.bound.simplifyIndex = hd.bound)
    (hruns : ¬hd.bound.int?.any (· ≤ 0) = true)
    (honce : ¬(hd.bound.int? == some 1 && !Block.hasAlloc body) = true) (hne : body ≠ [])
    (hbody : simplifyAll (rs.enter (hd.var, hd.bound.int?)) [] body = body)
    (hdead : dropDead [] body = body) : (loop hd body).simplify rs [] = [loop hd body] := by
  rw [simplify, Expr.zeroVars_nil, hbound, if_neg hruns, if_neg honce, hbody, hdead]
  cases body with
  | nil => exact absurd rfl hne
  | cons s rest => rfl

/-- A guard in its simplest form. -/
theorem simplify_guard_eq_self {e : Expr} (hcond : e.simplifyCondition = e)
    (hrefuted : ¬(rs.decide e == some false) = true)
    (hgranted : ¬(rs.decide e == some true && !Block.hasAlloc body) = true) (hne : body ≠ [])
    (hbody : simplifyAll rs [] body = body) (hdead : dropDead [] body = body) :
    (guard e body).simplify rs [] = [guard e body] := by
  rw [simplify, Expr.zeroVars_nil, hcond, if_neg hrefuted, if_neg hgranted, hbody, hdead]
  cases body with
  | nil => exact absurd rfl hne
  | cons s rest => rfl

theorem hasAlloc_simplifyAll (rs : Ranges) (zeros : List String) (b : Block) :
    Block.hasAlloc (simplifyAll rs zeros b) = Block.hasAlloc b := by
  rw [Bool.eq_iff_iff, ← not_iff_not, Bool.not_eq_true, Bool.not_eq_true,
    Block.hasAlloc_eq_false_iff, Block.hasAlloc_eq_false_iff, declared_simplifyAll]

/-- What a round makes of a body that keeps its allocations, if the statements in it are done. -/
theorem simplifyAll_body {body' : Block}
    (ih : allocated (simplifyAll rs zeros body) = body.allocated →
      simplifyAll rs [] (simplifyAll rs zeros body) = simplifyAll rs zeros body)
    (hbody : dropDead [] (simplifyAll rs zeros body) = body')
    (h : allocated body' = body.allocated) :
    Block.hasAlloc body' = Block.hasAlloc body ∧ simplifyAll rs [] body' = body' ∧
      dropDead [] body' = body' := by
  subst hbody
  -- neither of the two passes has dropped any
  have hdrop := allocated_dropDead_sublist [] (simplifyAll rs zeros body)
  have hkeep : allocated (simplifyAll rs zeros body) = body.allocated :=
    (allocated_simplifyAll_sublist rs zeros body).eq_of_length_le (h ▸ hdrop.length_le)
  have hdead := dropDead_eq_self (h.trans hkeep.symm)
  rw [hdead]
  exact ⟨hasAlloc_simplifyAll rs zeros body, ih hkeep, hdead⟩

/-- What a round makes of a statement is in its simplest form if no allocation in it is dropped. -/
theorem simplifyAll_simplify {s : Stmt}
    (ih : ∀ body, s.body? = some body → ∀ (rs : Ranges) (zeros : List String),
      allocated (simplifyAll rs zeros body) = body.allocated →
      simplifyAll rs [] (simplifyAll rs zeros body) = simplifyAll rs zeros body)
    (h : allocated (s.simplify rs zeros) = allocated [s]) :
    simplifyAll rs [] (s.simplify rs zeros) = s.simplify rs zeros := by
  rw [Block.allocated_singleton] at h
  cases s with
  | loop hd body =>
    generalize hb : (hd.bound.zeroVars zeros).simplifyIndex = bound
    have hbound : bound.simplifyIndex = bound := by rw [← hb, Expr.simplifyIndex_simplifyIndex]
    rw [simplify, hb] at h ⊢
    by_cases hruns : bound.int?.any (· ≤ 0) = true
    · rw [if_pos hruns]
      rfl
    rw [if_neg hruns] at h ⊢
    by_cases honce : (bound.int? == some 1 && !Block.hasAlloc body) = true
    · rw [if_pos honce] at h ⊢
      exact ih body rfl _ _ h
    rw [if_neg honce] at h ⊢
    cases hbody : dropDead [] (simplifyAll (rs.enter (hd.var, bound.int?)) zeros body) with
    | nil => rfl
    | cons t ts =>
      -- the loop stays, so none of the rules that remove it applies to the result either
      rw [hbody, Block.allocated_singleton] at h
      obtain ⟨halloc, hsimp, hdead⟩ := simplifyAll_body (ih body rfl _ _) hbody h
      rw [← halloc] at honce
      exact congrArg (· ++ []) <|
        simplify_loop_eq_self hbound hruns honce (List.cons_ne_nil t ts) hsimp hdead
  | guard e body =>
    generalize hc : (e.zeroVars zeros).simplifyCondition = cond
    have hcond : cond.simplifyCondition = cond := by
      rw [← hc, Expr.simplifyCondition_simplifyCondition]
    rw [simplify, hc] at h ⊢
    by_cases hrefuted : (rs.decide cond == some false) = true
    · rw [if_pos hrefuted]
      rfl
    rw [if_neg hrefuted] at h ⊢
    by_cases hgranted : (rs.decide cond == some true && !Block.hasAlloc body) = true
    · rw [if_pos hgranted] at h ⊢
      exact ih body rfl _ _ h
    rw [if_neg hgranted] at h ⊢
    cases hbody : dropDead [] (simplifyAll rs zeros body) with
    | nil => rfl
    | cons t ts =>
      rw [hbody, Block.allocated_singleton] at h
      obtain ⟨halloc, hsimp, hdead⟩ := simplifyAll_body (ih body rfl _ _) hbody h
      rw [← halloc] at hgranted
      exact congrArg (· ++ []) <|
        simplify_guard_eq_self hcond hrefuted hgranted (List.cons_ne_nil t ts) hsimp hdead
  | store u b idx rhs =>
    simp [simplify, simplifyAll, Expr.simplifyIndex_simplifyIndex, Expr.simplifyData_simplifyData]
  | alloc d => simp [simplify, simplifyAll, Expr.simplifyIndex_simplifyIndex]
  | call t args =>
    simp [simplify, simplifyAll, Expr.simplifyIndex_simplifyIndex, Window.mapExprs_mapExprs]

theorem simplifyAll_simplifyAll (h : allocated (simplifyAll rs zeros b) = b.allocated) :
    simplifyAll rs [] (simplifyAll rs zeros b) = simplifyAll rs zeros b := by
  induction b using Block.induction generalizing rs zeros with
  | nil => rfl
  | cons s rest ihs ihrest =>
    have hs : (allocated (s.simplify rs zeros)).Sublist (allocated [s]) := by
      simpa [simplifyAll] using allocated_simplifyAll_sublist rs zeros [s]
    have hrest := allocated_simplifyAll_sublist rs zeros rest
    rw [simplifyAll, Block.allocated_append, show s :: rest = [s] ++ rest from rfl,
      Block.allocated_append] at h
    -- both parts keep theirs, since neither can have more than before
    obtain ⟨hskeep, hrestkeep⟩ := List.append_inj h <| by
      have hlen := congrArg List.length h
      have hsle := hs.length_le
      have hrestle := hrest.length_le
      rw [List.length_append, List.length_append] at hlen
      omega
    rw [simplifyAll, simplifyAll_append, ihrest hrestkeep,
      simplifyAll_simplify (fun body hbody rs zeros hkeep => ihs body hbody hkeep) hskeep]

end Stmt

theorem Block.allocated_simplify_sublist (rs : Ranges) (b : Block) :
    (allocated (b.simplify rs)).Sublist b.allocated :=
  (allocated_dropDead_sublist _ _).trans (Stmt.allocated_simplifyAll_sublist rs [] b)

/-- **A round that drops no allocation leaves nothing to do.** -/
theorem Block.simplify_simplify {rs : Ranges} (h : allocated (b.simplify rs) = b.allocated) :
    (b.simplify rs).simplify rs = b.simplify rs := by
  obtain ⟨-, hsimp, hdead⟩ := Stmt.simplifyAll_body Stmt.simplifyAll_simplifyAll rfl h
  rw [Block.simplify, Block.simplify, hsimp, hdead]

/-! ## Kernels -/

namespace Proc

theorem simplifyRounds_add (p : Proc) (m n : Nat) :
    p.simplifyRounds (m + n) = (p.simplifyRounds m).simplifyRounds n := by
  induction m generalizing p with
  | zero => rw [Nat.zero_add, simplifyRounds]
  | succ m ih => rw [Nat.succ_add, simplifyRounds, ih, simplifyRounds]

theorem allocated_simplifyRounds_sublist (p : Proc) (n : Nat) :
    (p.simplifyRounds n).body.allocated.Sublist p.body.allocated := by
  induction n generalizing p with
  | zero => exact .refl _
  | succ n ih => exact (ih _).trans (allocated_simplify_sublist _ _)

/-- Nothing is left to do: another round would not change the kernel. -/
def Settled (p : Proc) : Prop := p.simplifyRounds 1 = p

theorem Settled.simplifyRounds (h : p.Settled) (n : Nat) : p.simplifyRounds n = p := by
  induction n with
  | zero => rfl
  | succ n ih => rw [Nat.add_comm, simplifyRounds_add, h, ih]

theorem settled_of_allocated (h : (p.simplifyRounds 1).body.allocated = p.body.allocated) :
    (p.simplifyRounds 1).Settled := by
  unfold Settled
  exact congrArg (fun b : Block => { p with body := b }) (simplify_simplify h)

/-- A kernel with fewer than `n` allocations is settled after `n` rounds: each round before drops
one of them. -/
theorem simplifyRounds_settles {n : Nat} (h : p.body.allocated.length < n) :
    (p.simplifyRounds n).Settled := by
  induction n generalizing p with
  | zero => cases h
  | succ n ih =>
    rw [Nat.add_comm, simplifyRounds_add]
    have hsub := p.allocated_simplifyRounds_sublist 1
    -- the first round keeps all allocations, or there are fewer from then on
    by_cases hlen : p.body.allocated.length ≤ (p.simplifyRounds 1).body.allocated.length
    · have hsettled := settled_of_allocated (hsub.eq_of_length_le hlen)
      rwa [hsettled.simplifyRounds]
    · exact ih (by omega)

/-- Rounds never lead back: a kernel that comes out of some rounds as it was is settled. -/
theorem settled_of_simplifyRounds {n : Nat} (h : p.simplifyRounds (n + 1) = p) : p.Settled := by
  rw [Nat.add_comm, simplifyRounds_add] at h
  have hkeep : (p.simplifyRounds 1).body.allocated = p.body.allocated := by
    have hback := (p.simplifyRounds 1).allocated_simplifyRounds_sublist n
    rw [h] at hback
    exact (p.allocated_simplifyRounds_sublist 1).antisymm hback
  rwa [(settled_of_allocated hkeep).simplifyRounds] at h

/-- Simplifying twice is simplifying once just where the kernel is settled by then. -/
theorem simplify_simplify_eq_iff_settled (p : Proc) :
    p.simplify.simplify = p.simplify ↔ p.simplify.Settled :=
  ⟨settled_of_simplifyRounds, fun h => h.simplifyRounds 32⟩

/-- **Simplification is idempotent up to its number of rounds.** It makes 32 of them: simplifying
twice is simplifying once just where the next round would change nothing, and this is so if the
kernel has fewer than 32 allocations. -/
theorem simplify_simplify_iff (p : Proc) :
    (p.simplify.simplify = p.simplify ↔ p.simplifyRounds 33 = p.simplifyRounds 32) ∧
      (p.body.allocated.length < 32 → p.simplify.simplify = p.simplify) := by
  refine ⟨?_, fun h => ?_⟩
  · rw [simplify_simplify_eq_iff_settled, Settled, simplify, ← simplifyRounds_add]
  · rw [simplify_simplify_eq_iff_settled]
    exact simplifyRounds_settles h

end Proc

/-- A kernel in which each buffer is read only to write the next one, so that all are dead, but only
the last is seen to be. -/
def relay (buffers : List String) : Proc where
  name := "relay"
  params := []
  body := buffers.map (fun x => .alloc ⟨x, .f32, [.int 1], .dram⟩) ++
    .loop ⟨"round", .int 2, .seq⟩ [.store .set "a" [.int 0] (.int 0)] ::
    List.zipWith (fun x y => .store .set y [.int 0] (.read x [.int 0])) buffers buffers.tail

theorem relay_three_settles :
    let p := relay ["a", "b", "c"]
    p.body.allocated.length < 32 ∧ p.simplify.simplify = p.simplify ∧ p.simplify.body = [] :=
  ⟨by decide, (Proc.simplify_simplify_iff _).2 (by decide), rfl⟩

/-- Of 32 buffers the last round drops the first one, and with it all of the loop's body. -/
theorem relay_unsettled :
    let p := relay ["a", "b", "c", "d", "e", "f", "g", "h", "i", "j", "k", "l", "m", "n", "o", "p",
      "q", "r", "s", "t", "u", "v", "w", "x", "y", "z", "A", "B", "C", "D", "E", "F"]
    p.problems none = [] ∧ p.simplify.simplify ≠ p.simplify := by
  intro p
  have hlast : (p.simplify.simplifyRounds 1).body.length ≠ p.simplify.body.length := by
    decide +kernel
  refine ⟨by decide +kernel, fun h => hlast ?_⟩
  exact congrArg (·.body.length) (p.simplify_simplify_eq_iff_settled.1 h)

end LoopNest
