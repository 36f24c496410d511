import LoopNest.Proofs.Trace.Reword

/-!
# Substituting for a variable

An expression over new names is put in the place of an index. Where it stands for the index, the block
does the same as before (`Stmt.traceAll_substVar`). In data the number may be computed in another way
than by converting the index, so that this depends on the arithmetic (`Simulation.equivIn`).

Where a block does not mention a variable, substituting for it changes nothing. A part of a loop that
does not mention the variable thus has the same trace in every round, and before and after the loop
(`Stmt.traceAll_unmentioned`).
-/

namespace LoopNest

open Stmt

variable {b : Block} {lay : Layout}

/-! ## Actions that are worth the same -/

section equiv

variable (α : Type) [Element α]

theorem EquivIn.store {α : Type} [Element α] {u : Update} {p : Place} {t t' : Term}
    (h : ∀ st : Store α, t'.eval st = t.eval st) :
    EquivIn α lay [.store u p t] [.store u p t'] := by
  refine ⟨rfl, fun st _ => ?_⟩
  cases u <;> simp only [perform_cons, perform_nil, Action.perform, h]

/-- The same layouts and places, and values that are the same in the arithmetic of `α`. -/
def Simulation.equivIn : Simulation where
  __ := Simulation.same
  terms _ _ t t' := ∀ st : Store α, t'.eval st = t.eval st
  actions lay _ := EquivIn α lay
  word _ _ := rfl
  float _ _ := rfl
  load := by
    rintro lay _ p _ s rfl rfl hs hp
    exact ⟨⟨s, hs, hp⟩, fun _ => rfl⟩
  binary op hl hr st := by cases op <;> simp only [Term.eval, hl, hr]
  neg ht st := by rw [Term.eval, Term.eval, ht]
  nil _ := .refl _ _
  after := by
    rintro lay _ a a' rfl ha
    exact ha.1
  append := by
    rintro lay lay' a a' b b' _ ha hb
    exact ha.append hb
  scope := by
    rintro lay _ a a' rfl _ _ ha
    exact ha.scope
  store := by
    rintro lay _ p _ t t' u rfl _ rfl ht
    exact .store ht
  alloc _ _ _ _ := .refl _ _

theorem Simulation.keeps_equivIn (callee : Callee) : (equivIn α).Keeps callee := by
  rintro env _ lay _ b acts rfl rfl h
  exact ⟨acts, h, .refl _ _⟩

end equiv

/-! ## Substitution -/

theorem Block.substVar_eq_reword (v : String) (value : Expr) (b : Block) :
    b.substVar v value = b.reword (·.substVar v value) id := by
  have hsame : ∀ s : Stmt, s.mapBuffers id = s := by
    intro s
    cases s <;> simp [mapBuffers]
  simp only [substVar, reword, hsame]

section subst

variable {S : Simulation} {v : String} {value : Expr} {c : Catalog} {callee : Callee}

/-- `value` stands for the index `v`, and all else is the same. -/
abbrev Env.Substituted (S : Simulation) (v : String) (value : Expr) : Env → Env → Prop :=
  Env.Reworded S (·.substVar v value) id fun _ => True

theorem Env.Substituted.intro {env env' : Env}
    (hnumber : ∀ {n}, env.value? v = some n → S.Stands env' value n)
    (hvalue : ∀ {x n}, x ≠ v → env.value? x = some n → env'.value? x = some n)
    (hview : ∀ {x u}, env.view? x = some u → ∃ u', env'.view? x = some u' ∧ S.views u u') :
    Env.Substituted S v value env env' where
  known _ := trivial
  value {x n} hx := by
    rw [Expr.substVar, Expr.rebuild]
    split
    next heq => exact hnumber (heq ▸ hx)
    next hne => exact Simulation.stands_var (hvalue hne hx)
  view := hview

/-- **Substitution keeps what a block does.** No statement of the block binds the variable or one of
the new names, so that none is captured. -/
theorem Stmt.traceAll_substVar (hc : callee.Closed) (hcallee : S.Keeps callee)
    (hnew : ∀ {lay lay'} x shape, S.layouts lay lay' →
      S.views (.whole lay.length x shape) (.whole lay'.length x shape))
    (hnames : ∀ x ∈ b.binders, x ≠ v ∧ x ∉ value.vars) :
    S.Follows (Env.Substituted S v value) (traceAll .checked c callee · · b)
      (traceAll .checked c callee · · (b.substVar v value)) := by
  have hrebuilds : Expr.Rebuilds (·.substVar v value) id := .rebuild _ id
  rw [Block.substVar_eq_reword]
  refine (Rewording.mapping_turns hrebuilds fun x hx => ?_).traceAll
    (Rewording.mapping_sound hrebuilds ⟨fun _ _ => id, fun _ _ => rfl⟩ hnew) hc hcallee
  obtain ⟨hxv, hxnew⟩ := hnames x hx
  have hself : (Expr.var x).substVar v value = .var x := if_neg hxv
  have hfree : ∀ y, y ≠ x → x ∉ ((Expr.var y).substVar v value).vars := by
    intro y hy
    rw [Expr.substVar, Expr.rebuild]
    split
    · exact hxnew
    · simpa using Ne.symm hy
  exact ⟨trivial, hself, fun y _ hy => ⟨hfree y hy, hfree y hy⟩⟩

end subst

/-! ## Variables that are not mentioned -/

theorem Expr.substVar_of_not_mentions {v : String} {e : Expr} (h : e.mentions v = false)
    (value : Expr) : e.substVar v value = e := by
  have hvars : v ∉ e.vars := by simpa [mentions] using h
  refine rebuild_eq_self fun x hx => if_neg ?_
  rintro rfl
  exact hvars hx

theorem Stmt.mapExprs_eq_self {f : Expr → Expr} {s : Stmt} (h : ∀ e ∈ s.exprs, f e = e) :
    s.mapExprs f = s := by
  have hmap : ∀ {es : List Expr}, (∀ e ∈ es, f e = e) → es.map f = es := fun hes =>
    (List.map_congr_left hes).trans (List.map_id' _)
  cases s with
  | loop hd body | guard cond body => rw [mapExprs, h _ (.head _)]
  | store u b idx rhs =>
    rw [exprs, List.forall_mem_append, List.forall_mem_singleton] at h
    rw [mapExprs, hmap h.1, h.2]
  | alloc d => rw [mapExprs, show d.shape.map f = d.shape from hmap h]
  | call t args =>
    refine congrArg _ ((List.map_congr_left fun w hw => ?_).trans (List.map_id' args))
    have hdims : w.dims.map (·.mapExprs f) = w.dims := by
      refine (List.map_congr_left fun d hd => ?_).trans (List.map_id' _)
      have hd : ∀ e ∈ d.exprs, f e = e := fun e he =>
        h e (List.mem_flatMap.2 ⟨w, hw, List.mem_flatMap.2 ⟨d, hd, he⟩⟩)
      cases d <;> simp_all [WindowDim.mapExprs, WindowDim.exprs]
    rw [Window.mapExprs, hdims]

theorem Block.substVar_of_not_mentions {v : String} (h : b.mentions v = false) (value : Expr) :
    b.substVar v value = b := by
  refine mapAll_eq_self fun s hs => mapExprs_eq_self fun e he => ?_
  simp only [mentions, mentionsHere, List.any_eq_false, Bool.not_eq_true] at h
  exact Expr.substVar_of_not_mentions (h s hs e he) value

/-- **A block that does not mention a variable does the same without it.** -/
theorem Stmt.traceAll_unmentioned {c : Catalog} {callee : Callee} (hc : callee.Closed) {v : String}
    (hb : b.mentions v = false) (hv : v ∉ b.binders) {env e : Env} {k : Word}
    (hnew : env.lookup v = none) {acts : List Action}
    (ht : traceAll .checked c callee (env.bind v (.index k)) lay b = some (acts, e)) :
    ∃ e', traceAll .checked c callee env lay b = some (acts, e') := by
  have henv : Env.Substituted .same v (.int k) (env.bind v (.index k)) env := by
    refine .intro (fun {n} hn => ?_) (fun {x n} hx hn => ?_) fun {x u} hu => ?_
    · obtain rfl : k = n := by simpa [Env.value?_bind] using hn
      exact Simulation.same.stands_int env k
    · rwa [Env.value?_bind, if_neg hx] at hn
    · exact ⟨u, by rwa [Env.view?_bind_new hnew] at hu, rfl⟩
  have hnames : ∀ x ∈ b.binders, x ≠ v ∧ x ∉ (Expr.int k).vars := fun x hx =>
    ⟨fun hxv => hv (hxv ▸ hx), by simp⟩
  obtain ⟨acts', e', ht', rfl, -⟩ := traceAll_substVar hc (Simulation.keeps_same callee)
    Simulation.same_whole hnames rfl henv ht
  rw [Block.substVar_of_not_mentions hb] at ht'
  exact ⟨e', ht'⟩

end LoopNest
