import LoopNest.Proofs.Context

/-!
# Replacing a statement, up to a relation between elements

Two kernels run beside each other, each in an arithmetic of its own, and related elements stay
related (`Paired`). If this is so of a statement and of what replaces it, in every state that a run
comes to, then it is so of the kernels (`Proc.paired_of_replaced`). The new statements may leave
tensors behind.
-/

namespace LoopNest

open Exec Stmt

variable {c : Catalog} {callee : Callee} {path : Path}

/-! ## Stores of one layout -/

/-- In stores of one layout, elements are related place by place. -/
theorem Seated.rel {α β : Type} {R : α → β → Prop} {lay : Layout} {st : Store α} {st' : Store β}
    (hst : st.layout = lay) (hst' : st'.layout = lay) (h : Seated R .whole lay.length st st')
    (q : Place) : Option.Rel R (st.at? q) (st'.at? q) := by
  cases hq : st.at? q with
  | none =>
    cases hq' : st'.at? q with
    | none => exact .none
    | some y =>
      obtain ⟨x, hx⟩ := Store.exists_at?_of_layout (hst'.trans hst.symm) hq'
      rw [hq] at hx
      cases hx
  | some x =>
    have hlt : q.1 < lay.length := by
      by_contra hle
      rw [Store.at?_eq_none (by rw [← Store.length_layout, hst]; omega)] at hq
      cases hq
    obtain ⟨y, hy, hxy⟩ := h q.1 q.2 x q hlt (Seat.lies_whole.2 rfl) hq
    rw [hy]
    exact .some hxy

/-- Stores of one layout with equal elements are equal. -/
theorem Seated.eq {α : Type} {lay : Layout} {st st' : Store α} (hst : st.layout = lay)
    (hst' : st'.layout = lay) (h : Seated Eq .whole lay.length st st') : st' = st := by
  refine (Store.ext_at (hst.trans hst'.symm) fun q => ?_).symm
  have hrel := h.rel hst hst' q
  generalize st.at? q = x, st'.at? q = y at hrel
  cases hrel with
  | none => rfl
  | some hxy => rw [hxy]

/-! ## Related elements -/

section paired

variable {α β : Type} [Element α] [Element β] {R : α → β → Prop} {lay : Layout}
  {a a' b b' : List Action}

/-- Where elements of all tensors are related, the lists leave them so. -/
def Paired (R : α → β → Prop) (lay : Layout) (acts acts' : List Action) : Prop :=
  ∀ ⦃st : Store α⦄ ⦃st' : Store β⦄, st.layout = lay → st'.layout = lay →
    Seated R .whole lay.length st st' →
      Seated R .whole lay.length (perform acts st) (perform acts' st')

namespace Paired

theorem of_reseats (hR : Element.Related R) (h : Reseats .whole lay lay a a') (ha : Grows lay a) :
    Paired R lay a a' :=
  fun _ _ hst hst' hc => (h.stores hR hst hst' hc).mono ha.length_le_after

/-- Lists that leave no tensors behind. -/
theorem append (ha : Paired R lay a a') (hclose : Closes lay a) (hclose' : Closes lay a')
    (hb : Paired R lay b b') : Paired R lay (a ++ b) (a' ++ b') := by
  intro st st' hst hst' hc
  rw [perform_append, perform_append]
  refine hb ?_ ?_ (ha hst hst' hc)
  · rw [layout_perform, hst, hclose.after]
  · rw [layout_perform, hst', hclose'.after]

/-- The same list may go before. -/
theorem behind (hR : Element.Related R) (ha : Reseats .whole lay lay a a) (hgrow : Grows lay a)
    (hb : Paired R (lay.after a) b b') : Paired R lay (a ++ b) (a ++ b') := by
  intro st st' hst hst' hc
  rw [perform_append, perform_append]
  refine (hb ?_ ?_ (ha.stores hR hst hst' hc)).mono hgrow.length_le_after
  · rw [layout_perform, hst]
  · rw [layout_perform, hst']

theorem scope (h : Paired R lay a a') : Paired R lay (scope lay a) (scope lay a') := by
  intro st st' hst hst' hc
  simp only [LoopNest.scope, perform_append, perform_cons, perform_nil, Action.perform]
  exact (h hst hst' hc).take (.refl lay)

theorem rounds {g g' : Nat → List Action} {n : Nat}
    (h : ∀ k < n, Paired R lay (g k) (g' k) ∧ Closes lay (g k) ∧ Closes lay (g' k)) :
    Paired R lay ((List.range n).flatMap g) ((List.range n).flatMap g') := by
  induction n with
  | zero => exact fun _ _ _ _ hc => hc
  | succ n ih =>
    simp only [List.range_succ, List.flatMap_append, List.flatMap_singleton]
    have hbefore := fun k (hk : k < n) => h k (Nat.lt_succ_of_lt hk)
    refine (ih hbefore).append ?_ ?_ (h n (Nat.lt_succ_self n)).1
    · exact .flatMap fun k hk => (hbefore k (List.mem_range.1 hk)).2.1
    · exact .flatMap fun k hk => (hbefore k (List.mem_range.1 hk)).2.2

end Paired

/-- The second list may leave tensors behind: the old ones keep their numbers, and in the
environments names stand for the same. -/
structure PairedIn (R : α → β → Prop) (env e' : Env) (lay : Layout) (acts acts' : List Action)
    (ρ : Nat → Seat) : Prop where
  old : ∀ i < lay.length, ρ i = .whole i
  layouts : Seats ρ lay (lay.after acts')
  names : env.Seats ρ [] e'
  paired : Paired R lay acts acts'

/-- The rest of the block runs where there are more tensors. -/
theorem PairedIn.rest (hR : Element.Related R) (hc : callee.Closed) (hcallee : callee.Seated)
    {env e e' : Env} {ρ : Nat → Seat} (h : PairedIn R env e' lay a a' ρ) (hclose : Closes lay a)
    {rest : Block} (ht : traceAll .checked c callee env lay rest = some (b, e)) :
    ∃ b' e'', traceAll .checked c callee e' (lay.after a') rest = some (b', e'') ∧
      Paired R lay (a ++ b) (a' ++ b') := by
  obtain ⟨b', e'', ht', hact, -⟩ :=
    traceAll_seated hc hcallee rest ρ h.layouts h.names ht
  refine ⟨b', e'', ht', fun st st' hst hst' hseated => ?_⟩
  rw [perform_append, perform_append]
  have hend := hact.stores hR (by rw [layout_perform, hst, hclose.after])
    (by rw [layout_perform, hst']) ((h.paired hst hst' hseated).congr h.old)
  exact (hend.mono (traceAll_grows hc rest ht).length_le_after).congr fun i hi => (h.old i hi).symm

end paired

/-! ## Changes in context -/

/-- **A change from a statement on, up to a relation.** What follows is paired with what followed, in
every state that a run comes to. Then the blocks are paired. -/
theorem Block.Recast.paired {α β γ : Type} [Element α] [Element β] [Element γ] {R : α → β → Prop}
    {exec : Env → Block → Exec γ Unit} (hR : Element.Related R)
    (hc : callee.Closed) (hcallee : callee.Seated) (hruns : callee.Runs exec) {s : Stmt}
    {rest t' : Block} {b b' : Block}
    (hrel : Block.Recast (s :: rest) t' path b b') {env e : Env} {st : Store γ}
    {acts : List Action}
    (hlocal : ∀ env' e' st' acts, Block.Reaches c exec env st b path env' st' →
      traceAll .checked c callee env' st'.layout (s :: rest) = some (acts, e') →
        ∃ acts' e'', traceAll .checked c callee env' st'.layout t' = some (acts', e'') ∧
          Paired R st'.layout acts acts')
    (ht : traceAll .checked c callee env st.layout b = some (acts, e)) :
    ∃ acts' e', traceAll .checked c callee env st.layout b' = some (acts', e') ∧
      Paired R st.layout acts acts' := by
  induction hrel generalizing env e st acts with
  | here => exact hlocal env e st acts .here ht
  | @next i path s rest rest' hrel ih =>
    obtain ⟨a, e₁, a', e₂, hs, hrest, ⟨⟩⟩ := traceAll_cons.1 ht
    have hrun := exec_of_trace hc hruns hs
    rw [← layout_perform] at hrest
    obtain ⟨x, f, hx, hpaired⟩ := ih
      (fun env' e' st' acts hreach => hlocal env' e' st' acts (.next hrun hreach)) hrest
    rw [layout_perform] at hx hpaired
    exact ⟨a ++ x, f, traceAll_cons.2 ⟨a, e₁, x, f, hs, hx, rfl⟩, .behind hR
      (traceAll_reseats hc hcallee (traceAll_singleton.2 hs)) (trace_grows hc hs).2
      hpaired⟩
  | @inside path s body body' rest hbody hrel ih =>
    obtain ⟨a, e₁, a', e₂, hs, hrest, ⟨⟩⟩ := traceAll_cons.1 ht
    have hnone : s.decl? = none := by cases s <;> cases hbody <;> rfl
    obtain ⟨hclose, rfl⟩ := (trace_grows hc hs).1 hnone
    rw [hclose.after] at hrest
    -- it is enough to treat the statement that holds the body
    suffices hstmt : ∃ x, (s.withBody body').trace .checked c callee e₁ st.layout = some (x, e₁) ∧
        Paired R st.layout a x by
      obtain ⟨x, hx, hpaired⟩ := hstmt
      have hclose' : Closes st.layout x :=
        ((trace_grows hc hx).1 (by cases s <;> cases hbody <;> rfl)).1
      refine ⟨x ++ a', e, traceAll_cons.2 ⟨x, e₁, a', e, hx, by rwa [hclose'.after], rfl⟩, ?_⟩
      exact hpaired.append hclose hclose' (.of_reseats hR (traceAll_reseats hc hcallee hrest)
        (traceAll_grows hc rest hrest))
    cases s with
    | loop hd b =>
      cases hbody
      obtain ⟨n, g, hn, hg, ⟨⟩⟩ := trace_loop.1 hs
      have hround : ∀ k < n.toInt.toNat, ∃ x, (∃ f, traceAll .checked c callee (e₁.turn hd k)
            st.layout body' = some (x, f)) ∧ Paired R st.layout (g k) x := by
        intro k hk
        obtain ⟨f, hf⟩ := hg k hk
        have hbefore := fun j (hj : j < k) => hg j (Nat.lt_trans hj hk)
        have hrun := run_rounds hc hruns hbefore
        have hlay := layout_rounds hc hbefore
        obtain ⟨x, f', hx, hpaired⟩ := ih (fun env' e' st' acts hreach => hlocal env' e' st' acts
            (.loop (Evaluator.checked_eval.1 hn) hk hrun hreach))
          (by rwa [hlay])
        rw [hlay] at hx hpaired
        exact ⟨x, ⟨f', hx⟩, hpaired⟩
      choose! g' hg' using hround
      refine ⟨_, trace_loop.2 ⟨n, g', hn, fun k hk => (hg' k hk).1, rfl⟩, .rounds fun k hk => ?_⟩
      obtain ⟨f, hf⟩ := hg k hk
      obtain ⟨⟨f', hf'⟩, hpaired⟩ := hg' k hk
      exact ⟨hpaired.scope, scope_traceAll_closes hc hf, scope_traceAll_closes hc hf'⟩
    | guard cond b =>
      cases hbody
      obtain ⟨hcond, ⟨⟩⟩ | ⟨hcond, x, f, hx, ⟨⟩⟩ := trace_guard.1 hs
      · exact ⟨[], trace_guard.2 (.inl ⟨hcond, rfl⟩), fun _ _ _ _ hc => hc⟩
      · obtain ⟨y, f', hy, hpaired⟩ := ih
          (fun env' e' st' acts hreach => hlocal env' e' st' acts
            (.guard (Evaluator.condition_of_checked hcond) hreach)) hx
        exact ⟨_, trace_guard.2 (.inr ⟨hcond, y, f', hy, rfl⟩), hpaired.scope⟩
    | _ => cases hbody

/-! ## Kernels -/

/-- **Replacing in a kernel, up to a relation.** -/
theorem Proc.paired_of_replaced {α β γ : Type} [Element α] [Element β] [Element γ]
    {R : α → β → Prop} (hR : Element.Related R) {p : Proc} {args : Args γ} {s : Stmt}
    {new b : Block} (hfresh : FreshAll (p.params.map (·.name)) p.body)
    (hdecl : s.decl? = none) (hrel : Block.Replaced s new path p.body b)
    (hlocal : ∀ seen env st acts, p.Reaches c args path env st → env.Tidy seen st.layout →
      s.Fresh seen → s.trace .checked c c.calls env st.layout = some (acts, env) →
        ∃ acts' e' ρ, c.traceAll env st.layout new = some (acts', e') ∧
          PairedIn R env e' st.layout acts acts' ρ)
    (hrun : (p.run c args).1 = .ok ()) :
    ∃ frame acts acts' e e', args.bindParams p.params = .ok frame ∧
      c.traceAll frame.env frame.store.layout p.body = some (acts, e) ∧
      c.traceAll frame.env frame.store.layout b = some (acts', e') ∧
      Paired R frame.store.layout acts acts' := by
  obtain ⟨rest, hrel⟩ := hrel
  obtain ⟨frame, acts, e, hframe, hacts⟩ := Proc.traceAll_of_run hrun
  refine (hrel.paired hR c.calls_closed c.calls_seated c.calls_runs
    (fun env e st acts hreach ht => ?_) hacts).elim fun acts' ⟨e', hacts', hpaired⟩ =>
      ⟨frame, acts, acts', e, e', hframe, hacts, hacts', hpaired⟩
  have hreach : p.Reaches c args path env st := ⟨frame, hframe, hreach⟩
  obtain ⟨seen, a, a', htidy, hs, hat, rfl, hrest⟩ := hreach.tidy hfresh hdecl hrel ht
  have hclose := ((trace_grows c.calls_closed hat).1 hdecl).1
  obtain ⟨x, e₁, ρ, hx, hpaired⟩ := hlocal seen env st a hreach htidy hs hat
  rw [hclose.after] at hrest
  obtain ⟨y, e₂, hy, hpaired'⟩ := hpaired.rest hR c.calls_closed c.calls_seated hclose hrest
  exact ⟨x ++ y, e₂, traceAll_append.2 ⟨x, e₁, y, e₂, hx, hy, rfl⟩, hpaired'⟩

end LoopNest
