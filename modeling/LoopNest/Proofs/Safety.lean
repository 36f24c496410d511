import LoopNest.Proofs.Binding
import LoopNest.Proofs.Fresh
import LoopNest.Proofs.Templates

/-!
# Well-formed kernels do not go wrong

What can stop a well-formed kernel on arguments of the right shapes is its numbers: an element that
is not there, a division by zero, an allocation with a negative extent, or a number that is no word.
It never meets a name that stands for nothing, an expression of the wrong kind, a template that is
not there or a parameter without an argument (`Proc.fails_only_on_numbers`).

The scope that the checks keep for each statement says which names stand for indices and which for
buffers. An environment that serves it (`Env.Serves`) binds them so, and every statement hands on an
environment that serves the scope of the statements after it.
-/

namespace LoopNest

open Exec Scope

variable {x : String} {e : Expr} {es : List Expr}

/-- Failures that depend on numbers alone. -/
inductive Failure.IsNumeric : Failure → Prop
  | outOfBounds {e : EvalError} : e.kindName = "OutOfBounds" → IsNumeric (.error e)
  | divisionByZero (e : Expr) : IsNumeric (.error (.divisionByZero e))
  | negativeExtent (buf : String) {n : Word} : n < 0 → IsNumeric (.error (.negativeExtent buf n))
  | overflow : IsNumeric .overflow

/-! ## Computations that only numbers can stop -/

section safe

variable {α β γ : Type} {Q : β → Prop} {R : γ → Prop}

/-- The evaluation gives a value with `Q`, or its numbers stop it. -/
def Safe (Q : β → Prop) : Except Failure β → Prop
  | .ok b => Q b
  | .error f => f.IsNumeric

namespace Safe

theorem ok {b : β} (h : Q b) : Safe Q (.ok b) := h

theorem outside {e : EvalError} (h : e.kindName = "OutOfBounds") : Safe Q (failWith e) :=
  .outOfBounds h

theorem noOverflow (o : Option β) : Safe (fun _ => True) (noOverflow o) := by
  cases o with
  | none => exact .overflow
  | some b => trivial

theorem bind {x : Except Failure β} {f : β → Except Failure γ} (h : Safe Q x)
    (hf : ∀ b, Q b → Safe R (f b)) : Safe R (x >>= f) := by
  cases x with
  | ok b => exact hf b h
  | error f => exact h

/-- A check of the numbers so far, and what is done after it. -/
theorem check {p : Prop} [Decidable p] {e : EvalError} {next : PUnit → Except Failure β}
    (he : p → (Failure.error e).IsNumeric) (hnext : Safe Q (next ⟨⟩)) :
    Safe Q (if p then failWith e >>= next else next ⟨⟩) := by
  by_cases hp : p
  · rw [if_pos hp]
    exact he hp
  · rw [if_neg hp]
    exact hnext

end Safe

/-- From every store the computation gives a value with `Q`, or its numbers stop it. -/
def Exec.Safe (Q : β → Prop) (x : Exec α β) : Prop := ∀ st, LoopNest.Safe Q (x.run.run st).1

namespace Exec.Safe

theorem pure {b : β} (h : Q b) : Exec.Safe Q (Pure.pure b : Exec α β) := fun _ => h

theorem eval {x : Except Failure β} (h : LoopNest.Safe Q x) :
    Exec.Safe Q (Exec.eval x : Exec α β) := fun _ => h

theorem get : Exec.Safe (fun _ => True) (MonadState.get : Exec α (Store α)) := fun _ => trivial

theorem modify (f : Store α → Store α) :
    Exec.Safe (fun _ => True) (modify f : Exec α PUnit) := fun _ => trivial

theorem bind {x : Exec α β} {f : β → Exec α γ} (h : Exec.Safe Q x)
    (hf : ∀ b, Q b → Exec.Safe R (f b)) : Exec.Safe R (x >>= f) := by
  intro st
  have hx := h st
  cases hrun : x.run.run st with
  | mk r st' =>
    rw [hrun] at hx
    cases r with
    | ok b =>
      rw [run_bind_ok hrun]
      exact hf b hx st'
    | error f =>
      rw [run_bind_error hrun]
      exact hx

theorem inScope {x : Exec α β} (h : Exec.Safe Q x) : Exec.Safe Q (Exec.inScope x) := h

theorem countUp {f : Word → Exec α Unit} (h : ∀ k, Exec.Safe (fun _ => True) (f k)) (n k : Nat) :
    Exec.Safe (fun _ => True) (Exec.countUp f n k) := by
  induction n generalizing k with
  | zero => exact pure trivial
  | succ n ih => exact bind (h _) fun _ _ => ih (k + 1)

end Exec.Safe

end safe

/-! ## Environments -/

/-- The environment binds the index names of the scope to numbers and its buffers to views, and
nothing else. -/
structure Env.Serves (sc : Scope) (env : Env) : Prop extends Env.Fits sc env where
  buffer : ∀ x d, sc.buffer? x = some d → ∃ v, env.view? x = some v

namespace Env.Serves

variable {sc : Scope} {env : Env}

theorem nil : Env.Serves {} [] where
  value v hv := by simp [isIndex] at hv
  visible x hx := by simp at hx
  buffer x d hd := by simp [buffer?] at hd

variable (h : env.Serves sc)
include h

theorem bind_index {sc' : Scope} {n : Word} (hnew : sc.isVisible x = false)
    (hfits : Env.Fits sc' (env.bind x (.index n))) (hbuffers : sc'.buffers = sc.buffers) :
    Env.Serves sc' (env.bind x (.index n)) where
  toFits := hfits
  buffer y d hd := by
    have hold : sc.buffer? y = some d := by rwa [buffer?, ← hbuffers]
    have hne : y ≠ x := by
      rintro rfl
      rw [isVisible_of_buffer? hold] at hnew
      cases hnew
    rw [view?_bind, if_neg hne]
    exact h.buffer y d hold

/-- The variable of a loop. -/
theorem bind_var (hnew : sc.isVisible x = false) (n : Word) :
    Env.Serves (sc.addVar x) (env.bind x (.index n)) :=
  h.bind_index hnew (h.toFits.bind_var x n) rfl

theorem bind_size (hnew : sc.isVisible x = false) (n : Word) :
    Env.Serves (sc.addParam (.size x)) (env.bind x (.index n)) :=
  h.bind_index hnew (h.toFits.bind_size x n) rfl

theorem bind_buffer {d : Decl} (hnew : sc.isVisible d.name = false) (v : View) :
    Env.Serves (sc.addBuffer d) (env.bind d.name (.buffer v)) where
  toFits := h.toFits.bind_buffer hnew v
  buffer x e he := by
    rw [buffer?_addBuffer] at he
    rw [view?_bind]
    by_cases hx : x = d.name
    · exact ⟨v, by rw [if_pos hx]⟩
    · rw [if_neg (Ne.symm hx)] at he
      rw [if_neg hx]
      exact h.buffer x e he

/-! ## Expressions -/

theorem index_var (hx : sc.isIndex x = true) : ∃ n, env.index (.var x) = .ok n := by
  obtain ⟨n, hn⟩ := Option.isSome_iff_exists.1 (h.value x hx)
  exact ⟨n, index_var_eq_ok.2 hn⟩

theorem index (he : sc.checkIndex e = []) : Safe (fun _ => True) (env.index e) := by
  induction e with
  | var x =>
    obtain ⟨n, hn⟩ := h.index_var (isIndex_of_checkIndex he x (by simp))
    rw [hn]
    trivial
  | int n => trivial
  | float x | read b idx => cases he
  | binary op l r ihl ihr =>
    obtain ⟨hop, hl, hr⟩ := checkIndex_binary.1 he
    rw [Env.index]
    refine (ihl hl).bind fun x _ => (ihr hr).bind fun y _ => ?_
    cases op with
    | add | sub | mul => exact .noOverflow _
    | div | mod =>
      dsimp only
      split
      · trivial
      · exact .divisionByZero _
    | _ => cases hop
  | neg e ih =>
    rw [Env.index]
    exact (ih he).bind fun n _ => .noOverflow _

theorem indices (hes : ∀ e ∈ es, sc.checkIndex e = []) : Safe (fun _ => True) (env.indices es) := by
  induction es with
  | nil => trivial
  | cons e es ih =>
    obtain ⟨he, hes⟩ := List.forall_mem_cons.1 hes
    rw [Env.indices]
    exact (h.index he).bind fun n _ => (ih hes).bind fun ns _ => .ok trivial

theorem condition (he : sc.checkCondition e = []) : Safe (fun _ => True) (env.condition e) := by
  fun_induction Env.condition env e with
  | case1 l r ihl ihr =>
    obtain ⟨hl, hr⟩ := List.append_eq_nil_iff.1 (checkCondition.eq_1 sc l r ▸ he)
    refine (ihl hl).bind fun b _ => ?_
    cases b with
    | false => exact .ok trivial
    | true => exact ihr hr
  | case2 op l r hand =>
    obtain ⟨l', r', heq, -, -⟩ | ⟨op', l', r', heq, hop, hl, hr⟩ := of_checkCondition he
    · cases heq
      exact absurd rfl hand
    · cases heq
      refine (h.index hl).bind fun x _ => (h.index hr).bind fun y _ => ?_
      cases op with
      | add | sub | mul | div | mod | and => cases hop
      | _ => exact .ok trivial
  | case3 e hand hbinary =>
    obtain ⟨l, r, rfl, -, -⟩ | ⟨op, l, r, rfl, -, -, -⟩ := of_checkCondition he
    · exact absurd rfl (hand l r)
    · exact absurd rfl (hbinary op l r)

theorem extents (buf : String) (hes : ∀ e ∈ es, sc.checkIndex e = []) :
    Safe (fun _ => True) (env.extents buf es) := by
  induction es with
  | nil => trivial
  | cons e es ih =>
    obtain ⟨he, hes⟩ := List.forall_mem_cons.1 hes
    rw [Env.extents]
    exact (h.index he).bind fun n _ => .check (fun hneg => .negativeExtent buf hneg)
      ((ih hes).bind fun ns _ => .ok trivial)

/-! ## Buffers -/

theorem view {d : Decl} (hd : sc.buffer? x = some d) : Safe (fun _ => True) (env.view x) := by
  obtain ⟨v, hv⟩ := h.buffer x d hd
  rw [view_eq_ok.2 hv]
  trivial

theorem narrow (w : Window) (dims : List ViewDim) {ds : List WindowDim}
    (hds : ∀ e ∈ ds.flatMap (·.exprs), sc.checkIndex e = []) :
    Safe (fun _ => True) (env.narrow w dims ds) := by
  fun_induction Env.narrow env w dims ds with
  | case1 => trivial
  | case2 => exact .outside rfl
  | case3 ds c dims ih => exact (ih hds).bind fun rest _ => .ok trivial
  | case4 => exact .outside rfl
  | case5 offset extent dims e ds ih =>
    have he : sc.checkIndex e = [] := hds e (by simp [WindowDim.exprs])
    refine (h.index he).bind fun p _ => .check (fun _ => .outOfBounds rfl) ?_
    refine (Safe.noOverflow _).bind fun c _ => (ih fun e he => hds e ?_).bind fun rest _ =>
      .ok trivial
    exact List.mem_append_right _ he
  | case6 offset extent dims lo hi ds ih =>
    have hlo : sc.checkIndex lo = [] := hds lo (by simp [WindowDim.exprs])
    have hhi : sc.checkIndex hi = [] := hds hi (by simp [WindowDim.exprs])
    refine (h.index hlo).bind fun a _ => (h.index hhi).bind fun b _ =>
      .check (fun _ => .outOfBounds rfl) ?_
    refine (Safe.noOverflow _).bind fun start _ => (Safe.noOverflow _).bind fun count _ =>
      (ih fun e he => hds e ?_).bind fun rest _ => .ok trivial
    exact List.mem_append_right _ he

theorem window {w : Window} (hw : sc.checkWindow w = []) : Safe (fun _ => True) (env.window w) := by
  obtain ⟨⟨d, hd, -⟩, hexprs⟩ := checkWindow_eq_nil.1 hw
  exact (h.view hd).bind fun base _ =>
    (h.narrow w base.dims hexprs).bind fun dims _ => .ok trivial

end Env.Serves

theorem View.coordinates_safe (v : View) (index : List Word) :
    Safe (fun _ => True) (v.coordinates index) := by
  have hfrom : ∀ (dims : List ViewDim) (index' : List Word),
      Safe (fun _ => True) (coordinatesFrom (.outside v.name index) dims index') := by
    intro dims index'
    fun_induction coordinatesFrom (.outside v.name index) dims index' with
    | case1 => trivial
    | case2 c dims index' ih => exact ih.bind fun rest _ => .ok trivial
    | case3 | case4 => exact .outside rfl
    | case5 offset extent dims i index' hin ih =>
      exact (Safe.noOverflow _).bind fun c _ => ih.bind fun rest _ => .ok trivial
  unfold coordinates
  split
  · exact .outside rfl
  · exact hfrom v.dims index

namespace Env.Serves

variable {α : Type} {sc : Scope} {env : Env} {buf : String} {idx : List Expr}

theorem address (h : env.Serves sc) (haccess : sc.checkAccess buf idx = []) :
    Safe (fun _ => True) (env.address buf idx) := by
  obtain ⟨⟨d, hd, -⟩, hidx⟩ := checkAccess_eq_nil.1 haccess
  exact (h.view hd).bind fun v _ => (h.indices hidx).bind fun ns _ =>
    (v.coordinates_safe ns).bind fun cs _ => .ok trivial

theorem locate (h : env.Serves sc) (haccess : sc.checkAccess buf idx = []) (st : Store α) :
    Safe (fun _ => True) (st.locate env buf idx) := by
  refine (h.address haccess).bind fun x _ => ?_
  obtain ⟨v, cs⟩ := x
  dsimp only
  split
  · exact .ok trivial
  · exact .outside rfl

theorem load (h : env.Serves sc) (haccess : sc.checkAccess buf idx = []) (st : Store α) :
    Safe (fun _ => True) (st.load env buf idx) := by
  refine (h.address haccess).bind fun x _ => ?_
  obtain ⟨v, cs⟩ := x
  dsimp only
  split
  · exact .ok trivial
  · exact .outside rfl

theorem data [Element α] (h : env.Serves sc) (he : sc.checkData e = []) (st : Store α) :
    Safe (fun _ => True) (st.data env e) := by
  induction e with
  | var x =>
    obtain ⟨n, hn⟩ := h.index_var (isIndex_of_checkData he x (by simp))
    rw [Store.data, hn]
    trivial
  | int n | float x => trivial
  | read b idx => exact h.load he st
  | binary op l r ihl ihr =>
    obtain ⟨hop, hl, hr⟩ := checkData_binary.1 he
    rw [Store.data]
    refine (ihl hl).bind fun x _ => (ihr hr).bind fun y _ => ?_
    cases op with
    | add | sub | mul | div | mod => exact .ok trivial
    | _ => cases hop
  | neg e ih =>
    rw [Store.data]
    exact (ih he).bind fun x _ => .ok trivial

end Env.Serves

/-! ## Statements -/

section statements

variable {α : Type} [Element α] {c : Catalog} {templates : Templates}
  {callee : Env → Block → Exec α Unit}

/-- A call that passed its checks enters a template whose body only numbers can stop. -/
def Catalog.CallSafe (c : Catalog) (templates : Templates) (callee : Env → Block → Exec α Unit)
    (name : String) (args : List Window) : Prop :=
  ∀ (sc : Scope) (env : Env), env.Serves sc → sc.checkCall templates name args = [] →
    Safe (fun ib => Exec.Safe (fun _ => True) (callee ib.1 ib.2)) (c.enter env name args)

/-- **Well-scoped statements.** Only numbers can stop them if that is so for their calls. -/
theorem Stmt.execAll_safe {b : Block} {sc : Scope} {env : Env} (hb : WellScopedAll templates sc b)
    (henv : env.Serves sc)
    (hcalls : ∀ name args, .call name args ∈ b.nested → c.CallSafe templates callee name args) :
    Exec.Safe (fun _ => True) (Stmt.execAll c callee env b) := by
  induction b using Block.induction generalizing sc env with
  | nil => exact .pure trivial
  | cons s rest ihs ihrest =>
    have hfirst : ∀ name args, .call name args ∈ s.nested → c.CallSafe templates callee name args :=
      fun name args h => hcalls name args (List.mem_append_left _ h)
    have hrest : ∀ env', Env.Serves (sc.after s) env' →
        Exec.Safe (fun _ => True) (Stmt.execAll c callee env' rest) := fun env' henv' =>
      ihrest hb.2 henv' fun name args h => hcalls name args (List.mem_append_right _ h)
    rw [Stmt.execAll]
    refine Exec.Safe.bind ?_ hrest
    have hcheck := hb.1.check
    cases s with
    | loop h body =>
      obtain ⟨hbound, hvar⟩ := checkStmt_loop.1 hcheck
      rw [Stmt.exec]
      refine (Exec.Safe.eval (henv.index hbound)).bind fun n _ => ?_
      refine (Exec.Safe.countUp (fun k => ?_) _ 0).bind fun _ _ => .pure henv
      exact .inScope (ihs body rfl hb.1.2 (henv.bind_var hvar k) fun name args hcall =>
        hfirst name args (.tail _ hcall))
    | guard e body =>
      have hbody : Exec.Safe (fun _ => True) (Stmt.execAll c callee env body) :=
        ihs body rfl hb.1.2 henv fun name args hcall =>
          hfirst name args (.tail _ hcall)
      rw [Stmt.exec]
      refine (Exec.Safe.eval (henv.condition hcheck)).bind fun t _ => ?_
      cases t with
      | false => exact .pure henv
      | true => exact hbody.inScope.bind fun _ _ => .pure henv
    | store u b idx rhs =>
      obtain ⟨haccess, hdata⟩ := List.append_eq_nil_iff.1 hcheck
      rw [Stmt.exec]
      refine Exec.Safe.get.bind fun st _ => (Exec.Safe.eval (henv.data hdata st)).bind fun x _ => ?_
      refine Exec.Safe.get.bind fun st _ =>
        (Exec.Safe.eval (henv.locate haccess st)).bind fun place _ => ?_
      cases u with
      | set | add => exact (Exec.Safe.modify _).bind fun _ _ => .pure henv
    | alloc d =>
      obtain ⟨hname, hdecl⟩ := List.append_eq_nil_iff.1 hcheck
      have hnew : sc.isVisible d.name = false := by
        by_contra hvisible
        simp [hvisible] at hname
      have hshape : ∀ e ∈ d.shape, sc.checkIndex e = [] :=
        List.flatMap_eq_nil_iff.1 (List.append_eq_nil_iff.1 hdecl).2
      rw [Stmt.exec]
      refine (Exec.Safe.eval (henv.extents d.name hshape)).bind fun shape _ => ?_
      refine (Exec.Safe.eval (.noOverflow _)).bind fun t _ => Exec.Safe.get.bind fun st _ => ?_
      exact (Exec.Safe.modify _).bind fun _ _ => .pure (henv.bind_buffer hnew _)
    | call name args =>
      rw [Stmt.exec]
      refine (Exec.Safe.eval (hfirst name args (.head _) sc env henv hcheck)).bind ?_
      exact fun ib hcallee => Exec.Safe.bind hcallee fun _ _ => .pure henv

/-! ## Calls -/

/-- The parameters of a template stand for the views of the windows that are passed. -/
theorem Env.Serves.enter {sc inner : Scope} {env env' : Env} {isTemplate : Bool}
    {params : List Param} {args : List Window} (h : env.Serves sc) (hinner : env'.Serves inner)
    (hbuffers : ∀ q ∈ params, ∃ d, q = .buffer d)
    (hparams : checkParams isTemplate inner params = []) (hlen : params.length = args.length)
    (hargs : ∀ w ∈ args, sc.checkWindow w = []) :
    Safe (Env.Serves (params.foldl addParam inner)) (env.enter env' (params.zip args)) := by
  induction params generalizing args env' inner with
  | nil => exact .ok hinner
  | cons q params ih =>
    obtain ⟨w, args, rfl⟩ := List.exists_cons_of_length_eq_add_one hlen.symm
    obtain ⟨⟨d, rfl⟩, hrest⟩ := List.forall_mem_cons.1 hbuffers
    obtain ⟨hw, hargs⟩ := List.forall_mem_cons.1 hargs
    obtain ⟨hnew, -, hparams⟩ := of_checkParams hparams
    rw [List.zip_cons_cons, Env.enter]
    exact (h.window hw).bind fun v _ =>
      ih (hinner.bind_buffer hnew v) hrest hparams (Nat.succ.inj hlen) hargs

/-- A template was registered, and calls no other. -/
structure Proc.IsLeaf (t : Proc) : Prop where
  registered : ∃ c c' : Catalog, c.register t = .ok c'
  noCalls : ∀ name args, .call name args ∉ t.body.nested

theorem Proc.IsLeaf.exec_safe {t : Proc} (h : t.IsLeaf) (depth : Nat) {env : Env}
    (henv : env.Serves t.scope) :
    Exec.Safe (fun _ => True) (Block.exec c depth env t.body (α := α)) := by
  obtain ⟨c₀, c₁, hreg⟩ := h.registered
  have hscoped : Stmt.WellScopedAll none t.scope t.body := Proc.wellScoped (Catalog.of_register hreg).2
  cases depth with
  | zero | succ depth => exact .inScope (Stmt.execAll_safe hscoped henv fun name args hcall =>
      absurd hcall (h.noCalls name args))

theorem Catalog.callSafe (hleaf : ∀ t ∈ c.templates, t.IsLeaf) (name : String)
    (args : List Window) : c.CallSafe (some c.find?) (c.callee (α := α)) name args := by
  intro sc env henv hcheck
  obtain ⟨hwindows, t, hfind, hlen, -⟩ := of_checkCall hcheck
  have ht : t.IsLeaf := hleaf t (List.mem_of_find?_eq_some hfind)
  obtain ⟨c₀, c₁, hreg⟩ := ht.registered
  obtain ⟨hbuffers, hproblems⟩ := Catalog.of_register hreg
  have hparams : checkParams t.isTemplate {} t.params = [] :=
    List.map_eq_nil_iff.1 (List.append_eq_nil_iff.1 hproblems).1
  have henter : Safe (Env.Serves t.scope) (env.enter [] (t.params.zip args)) :=
    henv.enter .nil hbuffers hparams hlen hwindows
  rw [Catalog.enter, hfind]
  simp only [hlen, ne_eq, not_true_eq_false, if_false]
  exact henter.bind fun inner hinner => .ok (ht.exec_safe _ hinner)

end statements

/-! ## Arguments -/

theorem lookup_putNamed {β : Type} (name : String) (b : β) (l : List (String × β)) (x : String) :
    (putNamed name b l).lookup x = if x = name then some b else l.lookup x := by
  have hcons : ∀ (n : String) (a : β) (l : List (String × β)),
      ((n, a) :: l).lookup x = if x = n then some a else l.lookup x := by
    intro n a l
    by_cases hx : x = n
    · simp [hx]
    · rw [List.lookup_cons, beq_false_of_ne hx, if_neg hx]
  induction l with
  | nil => exact hcons name b []
  | cons nb l ih =>
    obtain ⟨n, old⟩ := nb
    rw [putNamed]
    by_cases hn : n = name
    · rw [if_pos hn, hn, hcons, hcons]
      by_cases hx : x = name
      · rw [if_pos hx, if_pos hx]
      · rw [if_neg hx, if_neg hx, if_neg hx]
    · rw [if_neg hn, hcons, hcons, ih]
      by_cases hx : x = n
      · rw [if_pos hx, if_pos hx, if_neg (hx ▸ hn)]
      · rw [if_neg hx, if_neg hx]

/-- The shape of a buffer depends on the values of the names in it alone. -/
theorem Env.extents_congr {env env' : Env} {buf : String} {shape : List Nat}
    (h : ∀ e ∈ es, ∀ v ∈ e.vars, env.value? v = env'.value? v)
    (hshape : env.extents buf es = .ok shape) : env'.extents buf es = .ok shape := by
  induction es generalizing shape with
  | nil => exact hshape
  | cons e es ih =>
    obtain ⟨he, hes⟩ := List.forall_mem_cons.1 h
    rw [extents, except_bind_eq_ok] at hshape ⊢
    obtain ⟨n, hn, hshape⟩ := hshape
    refine ⟨n, index_congr he hn, ?_⟩
    by_cases hneg : n < 0
    · simp [hneg, failWith, Bind.bind, Except.bind] at hshape
    · simp only [hneg, if_false, except_bind_eq_ok] at hshape ⊢
      obtain ⟨rest, hrest, hshape⟩ := hshape
      exact ⟨rest, ih hes hrest, hshape⟩

namespace Args

variable {α : Type}
variable {args : Args α} {fill : Decl → Nat → α}

theorem value?_sizeEnv (sizes : List (String × Word)) (x : String) :
    (sizeEnv sizes).value? x = sizes.lookup x := by
  have hlookup : (sizeEnv sizes).lookup x = (sizes.lookup x).map .index := by
    induction sizes with
    | nil => rfl
    | cons nv sizes ih =>
      obtain ⟨n, v⟩ := nv
      by_cases hx : x = n
      · simp [sizeEnv, hx]
      · have hne := beq_false_of_ne hx
        simpa [sizeEnv, List.lookup_cons, hne] using ih
  rw [Env.value?, hlookup]
  cases sizes.lookup x with
  | none | some v => rfl

/-- There is an argument for the parameter: a size of at least 1, or a tensor of the declared type
and shape. -/
def Provides (args : Args α) : Param → Prop
  | .size n => ∃ v, args.sizes.lookup n = some v ∧ 1 ≤ v
  | .buffer d => ∃ t, args.buffers.lookup d.name = some t ∧ t.ty = d.ty ∧
      (sizeEnv args.sizes).shape d = .ok t.shape

/-- Every buffer is given a tensor of its type and shape. -/
theorem of_allocate [Element α] {env : Env} {ds : List Decl}
    {buffers out : List (String × Tensor α)} (h : allocate env fill buffers ds = .ok out)
    (hnodup : (ds.map (·.name)).Nodup) :
    (∀ x, x ∉ ds.map (·.name) → out.lookup x = buffers.lookup x) ∧
      ∀ d ∈ ds, ∃ t, out.lookup d.name = some t ∧ t.ty = d.ty ∧ env.shape d = .ok t.shape := by
  induction ds generalizing buffers with
  | nil =>
    cases h
    simp
  | cons d ds ih =>
    obtain ⟨hnew, hnodup⟩ := List.nodup_cons.1 hnodup
    simp only [allocate, except_bind_eq_ok, noOverflow_eq_ok] at h
    obtain ⟨shape, hshape, t, ht, h⟩ := h
    obtain ⟨hkept, hgiven⟩ := ih h hnodup
    refine ⟨fun x hx => ?_, List.forall_mem_cons.2 ⟨⟨t, ?_, ?_⟩, hgiven⟩⟩
    · rw [List.map_cons, List.mem_cons, not_or] at hx
      rw [hkept x hx.2, lookup_putNamed, if_neg hx.1]
    · rw [hkept _ hnew, lookup_putNamed, if_pos rfl]
    · obtain ⟨n, -, ht⟩ := Option.bind_eq_some_iff.1 ht
      cases ht
      exact ⟨rfl, hshape⟩

theorem provides_of_forProc [Element α] {p : Proc} {sizes : List (String × Word)}
    (hnodup : (p.params.map (·.name)).Nodup) (h : forProc p sizes fill = .ok args)
    (hpos : ∀ n ∈ p.sizes, ∀ v, sizes.lookup n = some v → 1 ≤ v) :
    ∀ q ∈ p.params, args.Provides q := by
  unfold forProc at h
  split at h
  · cases h
  next hsizes =>
    rw [except_bind_eq_ok] at h
    obtain ⟨buffers, hbuffers, h⟩ := h
    cases h
    have hdistinct : (p.bufferParams.map (·.name)).Nodup := by
      rw [List.Nodup, List.pairwise_map] at hnodup ⊢
      rw [Proc.bufferParams, List.pairwise_filterMap]
      refine hnodup.imp fun {q q'} hne d hd d' hd' => ?_
      cases q with
      | size n => cases hd
      | buffer b =>
        cases q' with
        | size n => cases hd'
        | buffer b' =>
          cases hd
          cases hd'
          exact hne
    obtain ⟨-, hgiven⟩ := of_allocate hbuffers hdistinct
    intro q hq
    cases q with
    | size n =>
      have hn : n ∈ p.sizes := List.mem_filterMap.2 ⟨.size n, hq, rfl⟩
      have hsome := List.find?_eq_none.1 hsizes n hn
      cases hv : sizes.lookup n with
      | none => simp [hv] at hsome
      | some v => exact ⟨v, hv, hpos n hn v hv⟩
    | buffer d => exact hgiven d (List.mem_filterMap.2 ⟨.buffer d, hq, rfl⟩)

/-- Where the parameters in the scope were bound: they have the sizes that are given, and only their
tensors were taken. -/
structure Binds (args : Args α) (sc : Scope) (f : Frame α) : Prop where
  serves : f.env.Serves sc
  size : ∀ x n, f.env.value? x = some n → args.sizes.lookup x = some n
  taken : ∀ x ∈ f.names, sc.isVisible x = true

theorem Binds.bindParam {sc : Scope} {f : Frame α} {q : Param} (h : args.Binds sc f)
    (hnew : sc.isVisible q.name = false) (hdecl : ∀ d, q = .buffer d → sc.checkDecl d = [])
    (hq : args.Provides q) : ∃ f', args.Accepts f q f' ∧ args.Binds (sc.addParam q) f' := by
  have hvisible : ∀ x, x = q.name ∨ sc.isVisible x = true → (sc.addParam q).isVisible x = true :=
    fun x => (sc.isVisible_addParam q x).2
  cases q with
  | size n =>
    obtain ⟨v, hv, hone⟩ := hq
    refine ⟨_, .size hv (Int64.le_iff_toInt_le.1 hone), h.serves.bind_size hnew v,
      fun x m hm => ?_, fun x hx => hvisible x (.inr (h.taken x hx))⟩
    obtain ⟨rfl, rfl⟩ | ⟨-, hm⟩ := Env.value?_bind_index.1 hm
    · exact hv
    · exact h.size x m hm
  | buffer d =>
    obtain ⟨t, ht, hty, hshape⟩ := hq
    -- the names in the shape are sizes that are bound already, to what is given for them
    have hvalues : ∀ e ∈ d.shape, ∀ v ∈ e.vars, (sizeEnv args.sizes).value? v = f.env.value? v := by
      intro e he v hv
      have hindex : sc.isIndex v = true := isIndex_of_checkIndex
        (List.flatMap_eq_nil_iff.1 (List.append_eq_nil_iff.1 (hdecl d rfl)).2 e he) v hv
      obtain ⟨n, hn⟩ := Option.isSome_iff_exists.1 (h.serves.value v hindex)
      rw [value?_sizeEnv, h.size v n hn, hn]
    have hshape' : f.env.shape d = .ok t.shape := Env.extents_congr hvalues hshape
    have hfree : d.name ∉ f.names := fun htaken => by
      rw [Param.name, h.taken _ htaken] at hnew
      cases hnew
    refine ⟨_, .buffer hshape' hfree ht hty, h.serves.bind_buffer hnew _,
      fun x m hm => h.size x m (Env.value?_bind_buffer.1 hm).2, fun x hx => hvisible x ?_⟩
    rw [List.mem_append, List.mem_singleton] at hx
    exact hx.symm.imp_right (h.taken x)

/-- The parameters of a valid kernel can be bound, one after the other. -/
theorem exists_bindParams {p : Proc} {templates : Templates}
    (hvalid : p.problems templates = []) (hargs : ∀ q ∈ p.params, args.Provides q) :
    ∃ frame, args.bindParams p.params = .ok frame ∧ frame.env.Serves p.scope := by
  have hfold : ∀ (params : List Param) (sc : Scope) (f : Frame α), args.Binds sc f →
      (∀ q ∈ params, args.Provides q) → checkParams p.isTemplate sc params = [] →
        ∃ frame, args.AcceptsAll f params frame ∧
          args.Binds (params.foldl addParam sc) frame := by
    intro params
    induction params with
    | nil => exact fun sc f hf _ _ => ⟨f, .nil, hf⟩
    | cons q params ih =>
      intro sc f hf hargs hcheck
      obtain ⟨hq, hargs⟩ := List.forall_mem_cons.1 hargs
      obtain ⟨hnew, hdecl, hrest⟩ := of_checkParams hcheck
      obtain ⟨f', hf', hbinds⟩ := hf.bindParam hnew hdecl hq
      obtain ⟨frame, hframe, hscope⟩ := ih (sc.addParam q) f' hbinds hargs hrest
      exact ⟨frame, .cons hf' hframe, hscope⟩
  have hnone : args.Binds {} ⟨[], [], []⟩ := ⟨.nil, by simp [Env.value?], by simp⟩
  obtain ⟨frame, hframe, hbinds⟩ := hfold p.params {} _ hnone hargs
    (List.map_eq_nil_iff.1 (List.append_eq_nil_iff.1 hvalid).1)
  exact ⟨frame, bindParams_eq_ok.2 hframe, hbinds.serves⟩

end Args

/-! ## Kernels -/

/-- **Well-formed kernels do not go wrong.** The templates of the catalog were registered and call no
others, the kernel has no problems with that catalog, and the arguments were made for it with sizes
of at least 1. Then the parameters can be bound, and if the run fails, it is because of its
numbers. -/
theorem Proc.fails_only_on_numbers {α : Type} [Element α] {ts : List Proc} {c : Catalog} {p : Proc}
    {sizes : List (String × Word)} {fill : Decl → Nat → α} {args : Args α}
    (hcatalog : Catalog.registerAll {} ts = (c, none))
    (hcalls : ∀ t ∈ c.templates, ∀ name args, .call name args ∉ t.body.nested)
    (hvalid : p.problems (some c.find?) = []) (hargs : Args.forProc p sizes fill = .ok args)
    (hsizes : ∀ n ∈ p.sizes, ∀ v, sizes.lookup n = some v → 1 ≤ v) :
    (∃ frame, args.bindParams p.params = .ok frame) ∧
      ∀ f, (p.run c args).1 = .error f → f.IsNumeric := by
  have hleaf : ∀ t ∈ c.templates, t.IsLeaf := fun t ht =>
    ⟨(Catalog.of_registerAll hcatalog t ht).resolve_left (by simp), hcalls t ht⟩
  obtain ⟨frame, hframe, hserves⟩ := Args.exists_bindParams hvalid
    (Args.provides_of_forProc (Proc.nodup_params hvalid) hargs hsizes)
  refine ⟨⟨frame, hframe⟩, fun f hf => ?_⟩
  have hbody : Exec.Safe (fun _ => True) (Block.exec c c.callDepth frame.env p.body (α := α)) := by
    rw [Block.exec_callDepth]
    exact .inScope (Stmt.execAll_safe (Proc.wellScoped hvalid) hserves fun name args _ =>
      Catalog.callSafe hleaf name args)
  have hresult := hbody frame.store
  have hrun : ((Block.exec c c.callDepth frame.env p.body).run.run frame.store).1 = .error f := by
    rw [← hf, Proc.run, hframe]
    rfl
  rw [hrun] at hresult
  exact hresult

/-- Clear four elements. -/
def clearFour : Proc where
  name := "clear_four"
  params := [.buffer ⟨"dst", .f32, [.int 4], .dram⟩]
  body := [.loop ⟨"i", .int 4, .seq⟩ [.store .set "dst" [.var "i"] (.int 0)]]
  instr := some "clear"

/-- Add up to four elements to cleared ones. -/
def addFour : Proc where
  name := "add_four"
  params := [.size "n", .buffer ⟨"A", .f32, [.var "n"], .dram⟩]
  body := [.alloc ⟨"t", .f32, [.int 4], .dram⟩, .call "clear_four" [⟨"t", [.interval (.int 0) (.int 4)]⟩],
    .loop ⟨"k", .var "n", .seq⟩ [.guard (.binary .lt (.var "k") (.var "n"))
      [.store .add "t" [.var "k"] (.read "A" [.var "k"])]]]

/-- The fifth element is not there. -/
theorem addFour_fails :
    let c : Catalog := ⟨[clearFour]⟩
    Catalog.registerAll {} [clearFour] = (c, none) ∧ addFour.problems (some c.find?) = [] ∧
      ∃ args : Args Float, Args.forProc addFour [("n", 5)] (fun _ _ => 0) = .ok args ∧
        (addFour.run c args).1 = .error (.error (.outside "t" [4])) ∧
        (Failure.error (.outside "t" [4])).IsNumeric := by
  intro c
  have hcatalog : Catalog.registerAll {} [clearFour] = (c, none) := by cbv
  have hvalid : addFour.problems (some c.find?) = [] := by cbv
  have hcalls : ∀ t ∈ c.templates, ∀ name args, .call name args ∉ t.body.nested := by
    simp [c, clearFour, Block.nested, Stmt.nestedAll, Stmt.nested]
  have hsizes : ∀ n ∈ addFour.sizes, ∀ v, List.lookup n [("n", (5 : Word))] = some v → 1 ≤ v := by
    simp [addFour, Proc.sizes]
  have hargs : Args.forProc addFour [("n", 5)] (fun _ _ => (0 : Float)) =
      .ok ⟨[("n", 5)], [("A", ⟨.f32, [5], Array.ofFn fun _ : Fin 5 => Element.round .f32 0⟩)]⟩ := rfl
  have hrun : (addFour.run c ⟨[("n", 5)], [("A", ⟨.f32, [5], Array.ofFn fun _ : Fin 5 =>
      Element.round .f32 (0 : Float)⟩)]⟩).1 = .error (.error (.outside "t" [4])) := rfl
  exact ⟨hcatalog, hvalid, _, hargs, hrun,
    (Proc.fails_only_on_numbers hcatalog hcalls hvalid hargs hsizes).2 _ hrun⟩

end LoopNest
