import LoopNest.Proofs.Trace.Basic

/-!
# Rewriting index expressions

A rewriting of index expressions that keeps their values, possibly from one environment to another,
keeps everything that is built from them: indices, extents and windows.
-/

namespace LoopNest

variable {es idx : List Expr} {lay : Layout} {buf : String} {p : Place}

@[simp] theorem WindowDim.mapExprs_id (d : WindowDim) : d.mapExprs id = d := by
  cases d <;> rfl

namespace Evaluator

/-- Rewritten expressions have in `env'` the values that the old ones have in `env`. -/
def Keeps (ev : Evaluator) (env env' : Env) (f : Expr → Expr) : Prop :=
  ∀ e n, ev.eval env e = some n → ev.eval env' (f e) = some n

variable {ev : Evaluator} {env env' : Env} {f : Expr → Expr}

/-- All values stay. -/
theorem Keeps.of_value? (h : ∀ {x n}, env.value? x = some n → env'.value? x = some n) :
    ev.Keeps env env' id := by
  intro e n he
  rw [id, ← he]
  refine (ev.congr fun v hv => ?_).symm
  obtain ⟨m, hm⟩ := Option.isSome_iff_exists.1 (ev.value?_isSome he v hv)
  rw [hm, h hm]

section

variable (hf : ev.Keeps env env' f)
include hf

theorem Keeps.indices {ns : List Word} (h : ev.indices env es = some ns) :
    ev.indices env' (es.map f) = some ns := by
  rw [indices_eq_some] at h ⊢
  exact List.forall₂_map_left_iff.2 (h.imp hf)

theorem Keeps.extents {shape : List Nat} (h : ev.extents env es = some shape) :
    ev.extents env' (es.map f) = some shape := by
  rw [extents_eq_some] at h ⊢
  exact List.forall₂_map_left_iff.2 (h.imp fun e m ⟨n, hn, hm⟩ => ⟨n, hf e n hn, hm⟩)

theorem Keeps.cut {d : WindowDim} {x : Cut} (h : ev.cut env d = some x) :
    ev.cut env' (d.mapExprs f) = some x := by
  cases d with
  | point e =>
    obtain ⟨n, hn, h⟩ := cut_point.1 h
    exact cut_point.2 ⟨n, hf e n hn, h⟩
  | interval lo hi =>
    obtain ⟨l, u, hl, hu, h⟩ := cut_interval.1 h
    exact cut_interval.2 ⟨l, u, hf lo l hl, hf hi u hu, h⟩

theorem Keeps.cuts {ds : List WindowDim} {cuts : List Cut} (h : ev.cuts env ds = some cuts) :
    ev.cuts env' (ds.map (·.mapExprs f)) = some cuts := by
  rw [cuts_eq_some] at h ⊢
  exact List.forall₂_map_left_iff.2 (h.imp fun _ _ => hf.cut)

/-- Guards are no index expressions, but their operands are. -/
theorem Keeps.condition (hbinary : ∀ op l r, f (.binary op l r) = .binary op (f l) (f r)) {e : Expr}
    {t : Bool} (h : ev.condition env e = some t) : ev.condition env' (f e) = some t := by
  induction e generalizing t with
  | binary op l r ihl ihr =>
    rw [hbinary]
    by_cases hop : op = .and
    · subst hop
      simp only [Evaluator.condition, option_bind_eq_some] at h ⊢
      obtain ⟨x, hx, h⟩ := h
      refine ⟨x, ihl hx, ?_⟩
      cases x with
      | true => exact ihr h
      | false => exact h
    · simp only [Evaluator.condition, option_bind_eq_some] at h ⊢
      obtain ⟨x, hx, y, hy, h⟩ := h
      exact ⟨x, hf l x hx, y, hf r y hy, h⟩
  | _ => cases h

end

section views

variable (hview : ∀ x, env'.view? x = env.view? x)

include hview

theorem Keeps.enter (hf : ev.Keeps env env' f) {l : List (Param × Window)} {inner r : Env}
    (h : ev.enter env inner l = some r) :
    ev.enter env' inner (l.map (Prod.map id (·.mapExprs f))) = some r := by
  induction l generalizing inner with
  | nil => exact h
  | cons pw l ih =>
    obtain ⟨v, hv, h⟩ := Option.bind_eq_some_iff.1 h
    obtain ⟨base, cuts, dims, hbase, hcuts, hdims, rfl⟩ := window_eq_some.1 hv
    refine Option.bind_eq_some_iff.2 ⟨_, window_eq_some.2 ⟨base, cuts, dims, ?_⟩, ih h⟩
    exact ⟨(hview _).trans hbase, hf.cuts hcuts, hdims, rfl⟩

theorem Keeps.place (hf : ev.Keeps env env' f) (h : ev.place env lay buf idx = some p) :
    ev.place env' lay buf (idx.map f) = some p := by
  obtain ⟨v, ns, hv, hns, h⟩ := place_eq_some.1 h
  exact place_eq_some.2 ⟨v, ns, (hview buf).trans hv, hf.indices hns, h⟩

theorem Keeps.load (hf : ev.Keeps env env' f) (h : ev.load env lay buf idx = some p) :
    ev.load env' lay buf (idx.map f) = some p :=
  load_eq_some.2 ((load_eq_some.1 h).imp_left (hf.place hview))

end views

end Evaluator

end LoopNest
