import LoopNest.Proofs.Trace.Reseat

/-!
# Other words for the same accesses

A block may say the same under other names, and with expressions for variables. If the expressions
stand for the values of the variables (`Env.Reworded`) and no two names fall together, then going
through the block with such a change is a sound rewording (`Rewording.mapping_sound`), whatever is
compared.
-/

namespace LoopNest

open Stmt

/-! ## Changes of expressions and of names -/

/-- The change goes through expressions. It names buffers by `r`, and of the rest it may replace
variables only. -/
structure Expr.Rebuilds (f : Expr → Expr) (r : String → String) : Prop where
  int : ∀ n, f (.int n) = .int n
  float : ∀ x, f (.float x) = .float x
  read : ∀ b idx, f (.read b idx) = .read (r b) (idx.map f)
  binary : ∀ op e e', f (.binary op e e') = .binary op (f e) (f e')
  neg : ∀ e, f (.neg e) = .neg (f e)

namespace Expr.Rebuilds

theorem refl : Rebuilds id id :=
  ⟨fun _ => rfl, fun _ => rfl, fun _ idx => by simp, fun _ _ _ => rfl, fun _ => rfl⟩

theorem rebuild (onVar : String → Expr) (r : String → String) :
    Rebuilds (Expr.rebuild onVar fun b idx => .read (r b) idx) r := by
  refine ⟨fun _ => rfl, fun _ => rfl, fun b idx => ?_, fun _ _ _ => rfl, fun _ => rfl⟩
  rw [Expr.rebuild, rebuildAll_eq_map]

theorem comp {f g : Expr → Expr} {r s : String → String} (hg : Rebuilds g s) (hf : Rebuilds f r) :
    Rebuilds (g ∘ f) (s ∘ r) := by
  refine ⟨fun n => ?_, fun x => ?_, fun b idx => ?_, fun op e e' => ?_, fun e => ?_⟩ <;>
    simp [hf.int, hg.int, hf.float, hg.float, hf.read, hg.read, hf.binary, hg.binary, hf.neg, hg.neg]

end Expr.Rebuilds

/-- Go through a block with a change of expressions and of the names of buffers. -/
def Block.reword (f : Expr → Expr) (r : String → String) (b : Block) : Block :=
  mapAll (fun s => (s.mapBuffers r).mapExprs f) b

namespace Block

@[simp] theorem reword_id (b : Block) : b.reword id id = b := by
  refine mapAll_eq_self fun s _ => ?_
  cases s <;> simp [mapBuffers, mapExprs, Window.mapExprs]

theorem reword_reword (f g : Expr → Expr) (r s : String → String) (b : Block) :
    (b.reword f r).reword g s = b.reword (g ∘ f) (s ∘ r) := by
  induction b using Block.induction with
  | nil => rfl
  | cons t rest ihs ihrest =>
    simp only [reword] at ihs ihrest ⊢
    simp only [mapAll]
    rw [ihrest]
    congr 1
    cases t with
    | loop h body => exact congrArg (Stmt.loop _) (ihs body rfl)
    | guard e body => exact congrArg (Stmt.guard _) (ihs body rfl)
    | store u b idx rhs | alloc d => simp [map, mapBuffers, mapExprs]
    | call t args =>
      have hdim : ∀ d : WindowDim, (d.mapExprs f).mapExprs g = d.mapExprs (g ∘ f) := by
        intro d
        cases d <;> rfl
      simp [map, mapBuffers, mapExprs, Window.mapExprs, hdim]

end Block

/-- Among the names in `D` no two get the same name, and those with another name get one from
outside. -/
structure Renames (D : String → Prop) (r : String → String) : Prop where
  inj : ∀ {x y}, D x → D y → r x = r y → x = y
  out : ∀ {x}, D x → D (r x) → r x = x

/-- In the environment the expression has the value `n`, as an index and as data. -/
def Simulation.Stands (S : Simulation) (env : Env) (e : Expr) (n : Word) : Prop :=
  env.index e = .ok n ∧
    ∀ lay lay', ∃ t, Evaluator.checked.term env lay' e = some t ∧ S.terms lay lay' (.word n) t

/-- All names that are bound are in `D`. An expression stands for every index, and all views are
related. -/
structure Env.Reworded (S : Simulation) (f : Expr → Expr) (r : String → String)
    (D : String → Prop) (env env' : Env) : Prop where
  known : ∀ {x}, (env.lookup x).isSome → D x
  value : ∀ {x n}, env.value? x = some n → S.Stands env' (f (.var x)) n
  view : ∀ {x v}, env.view? x = some v → ∃ v', env'.view? (r x) = some v' ∧ S.views v v'

/-- As data, an expression with an index as its value depends on its variables alone. -/
theorem Evaluator.term_congr {ev : Evaluator} {env env' : Env} (lay : Layout) {e : Expr} {n : Word}
    (hn : env.index e = .ok n) (h : ∀ v ∈ e.vars, env.value? v = env'.value? v) :
    ev.term env' lay e = ev.term env lay e := by
  induction e generalizing n with
  | var v => rw [term, term, h v (by simp)]
  | int n => rfl
  | float x | read b idx => cases hn
  | binary op l r ihl ihr =>
    simp only [Env.index, except_bind_eq_ok] at hn
    obtain ⟨x, hx, y, hy, -⟩ := hn
    rw [term, term, ihl hx fun v hv => h v (by simp [hv]), ihr hy fun v hv => h v (by simp [hv])]
  | neg e ih =>
    simp only [Env.index, except_bind_eq_ok] at hn
    obtain ⟨x, hx, -⟩ := hn
    rw [term, term, ih hx fun v hv => h v (by simpa using hv)]

namespace Simulation

variable {S : Simulation} {env : Env} {n : Word}

theorem stands_int (S : Simulation) (env : Env) (n : Word) : S.Stands env (.int n) n :=
  ⟨rfl, fun _ _ => ⟨.word n, rfl, S.word n⟩⟩

theorem stands_var {x : String} (h : env.value? x = some n) : S.Stands env (.var x) n :=
  ⟨Env.index_var_eq_ok.2 h, S.term_var h⟩

/-- Bindings of other names change nothing. -/
theorem Stands.bind {e : Expr} (h : S.Stands env e n) {x : String} (hx : x ∉ e.vars) (b : Binding) :
    S.Stands (env.bind x b) e n := by
  have hvalue : ∀ y ∈ e.vars, env.value? y = Env.value? (env.bind x b) y := by
    rintro y hy
    rw [Env.value?_bind, if_neg]
    rintro rfl
    exact hx hy
  refine ⟨Env.index_congr hvalue h.1, fun lay lay' => ?_⟩
  rw [Evaluator.term_congr lay' h.1 hvalue]
  exact h.2 lay lay'

end Simulation

namespace Rewording

/-- Go through with a change of expressions and of names. Variables that are bound on the way stay,
and none of the expressions captures one. -/
def mapping (f : Expr → Expr) (r : String → String) (D : String → Prop) : Rewording where
  index := f
  access b idx b' idx' := b' = r b ∧ idx' = idx.map f
  window a a' := a' = Window.mapExprs f { a with buf := r a.buf }
  name := r
  binds x := D x ∧ f (.var x) = .var x ∧
    ∀ y, D y → y ≠ x → x ∉ (f (.var y)).vars ∧ r x ∉ (f (.var y)).vars

section mapping

variable {f : Expr → Expr} {r : String → String} {D : String → Prop}

theorem mapping_data (hf : Expr.Rebuilds f r) (e : Expr) : (mapping f r D).Data e (f e) := by
  induction e with
  | var v => exact .var v
  | int n =>
    rw [hf.int]
    exact .int n
  | float x =>
    rw [hf.float]
    exact .float x
  | read b idx =>
    rw [hf.read]
    exact .read ⟨rfl, rfl⟩
  | binary op l r ihl ihr =>
    rw [hf.binary]
    exact .binary ihl ihr
  | neg e ih =>
    rw [hf.neg]
    exact .neg ih

theorem mapping_turns (hf : Expr.Rebuilds f r) {b : Block}
    (hb : ∀ x ∈ b.binders, (mapping f r D).binds x) : (mapping f r D).Turns b (b.reword f r) := by
  induction b using Block.induction with
  | nil => exact .nil
  | cons s rest ihs ihrest =>
    rw [Block.binders_cons, List.forall_mem_append] at hb
    have hrest := ihrest hb.2
    cases s with
    | loop h body =>
      obtain ⟨hvar, hbody⟩ := List.forall_mem_cons.1 hb.1
      exact .loop hvar (ihs body rfl hbody) hrest
    | guard e body => exact .guard (ihs body rfl hb.1) hrest
    | store u b idx rhs => exact .store ⟨rfl, rfl⟩ (mapping_data hf rhs) hrest
    | alloc d => exact .alloc (hb.1 d.name (.head _)) hrest
    | call t args =>
      refine .call ?_ hrest
      rw [List.map_map, List.forall₂_map_right_iff]
      exact List.forall₂_same.2 fun _ _ => rfl

/-- Names that get other names stay apart from the variables. -/
theorem mapping_binds (hr : Renames D r) {x : String} (hx : D x) (hself : f (.var x) = .var x)
    (hvars : ∀ y, ∀ z ∈ (f (.var y)).vars, z = y) : (mapping f r D).binds x := by
  refine ⟨hx, hself, fun y hy hne => ⟨fun hmem => hne (hvars y x hmem).symm, fun hmem => ?_⟩⟩
  have heq := hvars y _ hmem
  exact hne (heq.symm.trans (hr.out hx (heq ▸ hy)))

variable {S : Simulation} {env env' : Env}

theorem keeps_mapping (hf : Expr.Rebuilds f r) (h : env.Reworded S f r D env') :
    Evaluator.checked.Keeps env env' f := by
  intro e n hn
  rw [Evaluator.checked_eval] at hn ⊢
  induction e generalizing n with
  | var x => exact (h.value (Env.index_var_eq_ok.1 hn)).1
  | int m =>
    rw [hf.int]
    exact hn
  | binary op l r ihl ihr =>
    rw [hf.binary]
    simp only [Env.index, except_bind_eq_ok] at hn ⊢
    obtain ⟨x, hx, y, hy, hn⟩ := hn
    refine ⟨x, ihl x hx, y, ihr y hy, ?_⟩
    -- only the expression that a failure names is another one
    cases op <;> simp_all [failWith] <;> split at hn <;> simp_all
  | neg e ih =>
    rw [hf.neg]
    simp only [Env.index, except_bind_eq_ok] at hn ⊢
    obtain ⟨x, hx, hn⟩ := hn
    exact ⟨x, ih x hx, hn⟩
  | float x | read b idx => cases hn

/-- **Renaming is sound** where no two names fall together. -/
theorem mapping_sound (hf : Expr.Rebuilds f r) (hr : Renames D r)
    (hnew : ∀ {lay lay'} x shape, S.layouts lay lay' →
      S.views (.whole lay.length x shape) (.whole lay'.length (r x) shape)) :
    (mapping f r D).Sound S .checked (Env.Reworded S f r D) where
  keeps h := keeps_mapping hf h
  operands := hf.binary
  value lay lay' h hx := (h.value hx).2 lay lay'
  place hlay h hb hp := by
    obtain ⟨rfl, rfl⟩ := hb
    exact S.place (keeps_mapping hf h) h.view hlay hp
  view h ha hv := by
    cases ha
    exact S.window (keeps_mapping hf h) h.view hv
  bind_index {env env' x} n hx h := by
    refine ⟨fun {y} hy => ?_, fun {y m} hy => ?_, fun {y v} hy => ?_⟩
    · rw [Env.lookup_bind] at hy
      split at hy
      next heq => exact heq ▸ hx.1
      · exact h.known hy
    · rw [Env.value?_bind] at hy
      by_cases hyx : y = x
      · rw [if_pos hyx] at hy
        rw [hyx, hx.2.1]
        exact Simulation.stands_var (by rw [Env.value?_bind, if_pos rfl, hy])
      · rw [if_neg hyx] at hy
        have hD : D y := h.known (by rw [Env.value?_eq_some.1 hy]; rfl)
        exact (h.value hy).bind (hx.2.2 y hD hyx).1 _
    · rw [Env.view?_bind] at hy ⊢
      by_cases hyx : y = x
      · rw [if_pos hyx] at hy
        cases hy
      · rw [if_neg hyx] at hy
        -- the name of a buffer is not that of the variable, nor does it become so
        have hD : D y := h.known (by rw [Env.view?_eq_some.1 hy]; rfl)
        have hne : r y ≠ x := fun heq => hyx ((hr.out hD (heq ▸ hx.1)).symm.trans heq)
        rw [if_neg hne]
        exact h.view hy
  bind_whole {env env' x lay lay'} shape hx hlay h := by
    refine ⟨fun {y} hy => ?_, fun {y m} hy => ?_, fun {y v} hy => ?_⟩
    · rw [Env.lookup_bind] at hy
      split at hy
      next heq => exact heq ▸ hx.1
      · exact h.known hy
    · rw [Env.value?_bind] at hy
      by_cases hyx : y = x
      · rw [if_pos hyx] at hy
        cases hy
      · rw [if_neg hyx] at hy
        have hD : D y := h.known (by rw [Env.value?_eq_some.1 hy]; rfl)
        exact (h.value hy).bind (hx.2.2 y hD hyx).2 _
    · rw [Env.view?_bind] at hy ⊢
      by_cases hyx : y = x
      · rw [if_pos hyx] at hy
        cases hy
        exact ⟨_, by rw [hyx]; exact if_pos rfl, hnew x shape hlay⟩
      · rw [if_neg hyx] at hy
        have hD : D y := h.known (by rw [Env.view?_eq_some.1 hy]; rfl)
        obtain ⟨v', hv', hviews⟩ := h.view hy
        exact ⟨v', (if_neg fun heq => hyx (hr.inj hD hx.1 heq)).trans hv', hviews⟩
  omits hs := hs.elim

end mapping

end Rewording

end LoopNest
