import LoopNest.Proofs.Matching.Data

/-!
# Running a template and aligned code side by side

The body of a template and code that is aligned with it make the same changes to the store, round by
round and store by store (`Relates.execAll_inStep`). What has to be assumed of the index expressions
on the way is said with `Stmt.AlongAll`, which follows the loops and guards of both.
-/

namespace LoopNest

open Exec Stmt Evaluator Scope

variable {x : Float} {tidx cidx : List Expr}

mutual

/-- `P` holds of corresponding stores, in every environment in which the second of them runs. -/
def Stmt.Along (P : Env → Stmt → Stmt → Prop) (env : Env) : Stmt → Stmt → Prop
  | .loop _ ts, .loop h cs => ∀ n, env.index h.bound = .ok n → ∀ k < n.toInt.toNat,
      Stmt.AlongAll P (env.bind h.var (.index (Int64.ofNat k))) ts cs
  | .guard _ ts, .guard e cs => env.condition e = .ok true → Stmt.AlongAll P env ts cs
  | t, c => P env t c

/-- Statement by statement. -/
def Stmt.AlongAll (P : Env → Stmt → Stmt → Prop) (env : Env) : List Stmt → List Stmt → Prop
  | t :: ts, c :: cs => t.Along P env c ∧ Stmt.AlongAll P env ts cs
  | _, _ => True

end

namespace Stmt

/-- The accesses of this very statement. -/
def accesses : Stmt → List (String × List Expr)
  | store _ b idx rhs => (b, idx) :: rhs.accesses
  | _ => []

/-- The expressions in a store of the code that stand for variables of the template. -/
def standIns : (template code : Stmt) → List Expr
  | store _ _ _ rhs, store _ _ _ rhs' => rhs.standIns rhs'
  | _, _ => []

end Stmt

/-- The float literals of a block. -/
def Block.floats (b : Block) : List Float := b.nested.flatMap fun s => s.exprs.flatMap (·.floats)

/-- The accesses of a statement are within the declared shapes of the parameters. -/
def Proc.Inside (t : Proc) (env : Env) (s : Stmt) : Prop :=
  ∀ d ∈ t.bufferParams, ∀ idx, (d.name, idx) ∈ s.accesses → ∀ ns, env.indices idx = .ok ns →
    Matching.Within d.shape ns

/-- The body never leaves the declared shapes of the parameters. -/
def Proc.StaysInside (t : Proc) : Prop :=
  Stmt.AlongAll (fun env s _ => t.Inside env s) [] t.body t.body

/-! ## Environments with the same values -/

section congr

variable {env env' : Env}

theorem Env.condition_congr (henv : ∀ v, env.value? v = env'.value? v) {e : Expr} {b : Bool}
    (h : env.condition e = .ok b) : env'.condition e = .ok b := by
  have hsame : ∀ e, checked.eval env e = checked.eval env' e := fun e =>
    checked.congr fun v _ => henv v
  have hcondition : ∀ e, checked.condition env e = checked.condition env' e := by
    intro e
    fun_induction Evaluator.condition Evaluator.checked env e with
    | case1 l r ihl ihr => rw [Evaluator.condition, ihl, ihr]
    | case2 op l r hop => rw [Evaluator.condition.eq_2 _ _ _ _ _ hop, hsame, hsame]
    | case3 e hand hbinary => rw [Evaluator.condition.eq_3 _ _ _ hand hbinary]
  refine condition_of_checked (hcondition e ▸ ?_)
  exact (checked.condition_tallies e).eq_some h

theorem Stmt.AlongAll.congr {P : Env → Stmt → Stmt → Prop}
    (hP : ∀ {env env' : Env} {t c : Stmt}, (∀ v, env.value? v = env'.value? v) → P env t c →
      P env' t c) {ts cs : Block} (henv : ∀ v, env.value? v = env'.value? v)
    (h : AlongAll P env ts cs) : AlongAll P env' ts cs := by
  induction ts using Block.induction generalizing cs env env' with
  | nil => trivial
  | cons t ts ihs ihrest =>
    cases cs with
    | nil => trivial
    | cons c cs =>
      refine ⟨?_, ihrest henv h.2⟩
      have hhead := h.1
      cases t with
      | loop th tbody =>
        cases c with
        | loop ch cbody =>
          intro n hn k hk
          refine ihs tbody rfl (fun v => ?_) (hhead n (Env.index_congr (fun v _ => (henv v).symm) hn) k hk)
          rw [Env.value?_bind, Env.value?_bind, henv v]
        | _ => exact hP henv hhead
      | guard te tbody =>
        cases c with
        | guard ce cbody =>
          intro hc
          exact ihs tbody rfl henv (hhead (Env.condition_congr (fun v => (henv v).symm) hc))
        | _ => exact hP henv hhead
      | _ => cases c <;> exact hP henv hhead

end congr

theorem Proc.Inside.congr {t : Proc} {s : Stmt} {env env' : Env}
    (henv : ∀ v, env.value? v = env'.value? v) (h : t.Inside env s) : t.Inside env' s := by
  intro d hd idx hmem ns hns
  refine h d hd idx hmem ns ?_
  rw [Env.indices_eq_ok] at hns ⊢
  exact hns.imp fun e n he => Env.index_congr (fun v _ => (henv v).symm) he

namespace Block

theorem floats_cons (s : Stmt) (rest : Block) : floats (s :: rest) = floats [s] ++ floats rest := by
  simp [floats, nested, nestedAll]

theorem floats_body {s : Stmt} {body : Block} (h : s.body? = some body) (hx : x ∈ body.floats) :
    x ∈ floats [s] := by
  cases s <;> cases h <;> simp_all [floats, nested, nestedAll, Stmt.nested]

theorem floats_rhs {u : Update} {b : String} {idx : List Expr} {rhs : Expr} (hx : x ∈ rhs.floats) :
    x ∈ floats [.store u b idx rhs] := by
  simp [floats, nested, nestedAll, Stmt.nested, Stmt.exprs, hx]

end Block

namespace Matching

variable {α : Type} [Element α]
variable {callee callee' : Env → Block → Exec α Unit}

/-- The blocks `ts` of a template and `cs` of the code are about to run side by side. -/
structure SideBySide (template : Proc) (templates : Templates) (embed : Int → α)
    (sites : String → Option Site) (inner outer : Env) (ρ : Renaming) (tsc csc : Scope)
    (tenv cenv : Env) (ts cs : Block) : Prop where
  aligned : BlockAligned sites ρ ts cs
  relates : Relates ρ inner outer tsc csc tenv cenv
  params : tsc.buffers = template.scope.buffers
  templateScoped : WellScopedAll none tsc ts
  codeScoped : WellScopedAll templates csc cs
  inside : Stmt.AlongAll (fun env s _ => template.Inside env s) tenv ts ts
  exact : Stmt.AlongAll (fun env s s' => ∀ e ∈ s.standIns s', e.Exact embed env) cenv ts cs
  even : Stmt.AlongAll (fun env s s' => ∀ e ∈ s.standIns s', e.DividesEvenly env) cenv ts cs
  zero : ∀ x ∈ ts.floats ++ cs.floats, x ≠ -0

namespace SideBySide

variable {template : Proc} {templates : Templates} {embed : Int → α}
  {sites : String → Option Site} {inner outer tenv cenv : Env} {ρ : Renaming} {tsc csc : Scope}
  {t c : Stmt} {ts cs : Block}

theorem zero_left (h : SideBySide template templates embed sites inner outer ρ tsc csc tenv cenv
    (t :: ts) (c :: cs)) : ∀ x, x ∈ Block.floats [t] ∨ x ∈ Block.floats [c] → x ≠ -0 := by
  intro x hx
  refine h.zero x ?_
  rw [Block.floats_cons t, Block.floats_cons c]
  simp only [List.mem_append]
  tauto

theorem tail (h : SideBySide template templates embed sites inner outer ρ tsc csc tenv cenv
    (t :: ts) (c :: cs)) :
    SideBySide template templates embed sites inner outer ρ tsc csc tenv cenv ts cs := by
  obtain ⟨hal, hrel, hparams, htemplate, hcode, hinside, hexact, heven, hzero⟩ := h
  obtain _ | ⟨hstmt, hrest⟩ := hal
  have hscope : tsc.after t = tsc ∧ csc.after c = csc := by
    cases hstmt <;> exact ⟨rfl, rfl⟩
  refine ⟨hrest, hrel, hparams, hscope.1 ▸ htemplate.2, hscope.2 ▸ hcode.2, hinside.2, hexact.2,
    heven.2, fun x hx => hzero x ?_⟩
  rw [Block.floats_cons t, Block.floats_cons c]
  simp only [List.mem_append] at hx ⊢
  tauto

/-- A round of loops that correspond. -/
theorem loop {th ch : Header} {tbody cbody : Block}
    (h : SideBySide template templates embed sites inner outer ρ tsc csc tenv cenv
      (.loop th tbody :: ts) (.loop ch cbody :: cs)) {n : Word} {k : Nat}
    (hn : tenv.index th.bound = .ok n) (hn' : cenv.index ch.bound = .ok n)
    (hk : k < n.toInt.toNat) :
    SideBySide template templates embed sites inner outer ((th.var, ch.var) :: ρ)
      (tsc.addVar th.var) (csc.addVar ch.var) (tenv.turn th k) (cenv.turn ch k) tbody cbody := by
  have hzero := h.zero_left
  obtain ⟨hal, hrel, hparams, htemplate, hcode, hinside, hexact, heven, -⟩ := h
  obtain _ | ⟨hstmt, -⟩ := hal
  obtain ⟨-, -, -, hbody⟩ | _ | _ := hstmt
  obtain ⟨-, hv⟩ := checkStmt_loop.1 htemplate.1.1
  obtain ⟨-, hw⟩ := checkStmt_loop.1 hcode.1.1
  exact ⟨hbody, hrel.bind hv hw _, hparams, htemplate.1.2, hcode.1.2, hinside.1 n hn k hk,
    hexact.1 n hn' k hk, heven.1 n hn' k hk, fun x hx => hzero x ((List.mem_append.1 hx).imp
      (Block.floats_body rfl) (Block.floats_body rfl))⟩

theorem guard {te ce : Expr} {tbody cbody : Block}
    (h : SideBySide template templates embed sites inner outer ρ tsc csc tenv cenv
      (.guard te tbody :: ts) (.guard ce cbody :: cs))
    (ht : tenv.condition te = .ok true) (hc : cenv.condition ce = .ok true) :
    SideBySide template templates embed sites inner outer ρ tsc csc tenv cenv tbody cbody := by
  have hzero := h.zero_left
  obtain ⟨hal, hrel, hparams, htemplate, hcode, hinside, hexact, heven, -⟩ := h
  obtain _ | ⟨hstmt, -⟩ := hal
  obtain _ | ⟨-, hbody⟩ | _ := hstmt
  exact ⟨hbody, hrel, hparams, htemplate.1.2, hcode.1.2, hinside.1 ht, hexact.1 hc, heven.1 hc,
    fun x hx => hzero x ((List.mem_append.1 hx).imp (Block.floats_body rfl)
      (Block.floats_body rfl))⟩

variable (hembed : ∀ n : Word, embed n.toInt = Element.ofWord n) (hwhole : outer.ViewsWhole)
  (hpassed : ∀ d ∈ template.bufferParams, Passed sites inner outer d)
include hwhole hpassed

/-- An access of the template and the one in the code. -/
theorem address_agrees
    (h : SideBySide template templates embed sites inner outer ρ tsc csc tenv cenv (t :: ts) (c :: cs))
    (hin : template.Inside tenv t) {p b : String}
    (hmem : (p, tidx) ∈ t.accesses) (ht : tsc.checkAccess p tidx = [])
    (hc : csc.checkAccess b cidx = []) (hal : AccessAligned sites ρ p tidx b cidx) :
    Agrees (fun a a' => a.1.tensor = a'.1.tensor ∧ a.2 = a'.2) (tenv.address p tidx)
      (cenv.address b cidx) := by
  obtain ⟨⟨d, hd, -⟩, htidx⟩ := checkAccess_eq_nil.1 ht
  obtain rfl : d.name = p := by simpa using List.find?_some hd
  have hparam : d ∈ template.bufferParams := by
    rw [buffer?, h.params, Proc.scope_eq] at hd
    exact List.mem_reverse.1 (List.mem_of_find?_eq_some hd)
  exact h.relates.address_agrees hwhole (hpassed d hparam) hal htidx (checkAccess_eq_nil.1 hc).2
    (hin d hparam tidx hmem)

include hembed

/-- **Stores that are aligned make the same change.** -/
theorem store_inStep {u u' : Update} {p b : String} {trhs crhs : Expr} {cat cat' : Catalog}
    (h : SideBySide template templates embed sites inner outer ρ tsc csc tenv cenv
      (.store u p tidx trhs :: ts) (.store u' b cidx crhs :: cs)) (st : Store α) :
    InStep (fun e e' => e = tenv ∧ e' = cenv) ((Stmt.store u p tidx trhs).exec cat callee tenv)
      ((Stmt.store u' b cidx crhs).exec cat' callee' cenv) st := by
  have hal : StmtAligned sites ρ (.store u p tidx trhs) (.store u' b cidx crhs) := by
    obtain _ | ⟨hstmt, -⟩ := h.aligned
    exact hstmt
  obtain _ | _ | ⟨htarget, hdata⟩ := hal
  obtain ⟨htp, htrhs⟩ := List.append_eq_nil_iff.1 h.templateScoped.1
  obtain ⟨hcb, hcrhs⟩ := List.append_eq_nil_iff.1 h.codeScoped.1
  have hvalue : ∀ s : Store α, Agrees Eq (s.data tenv trhs) (s.data cenv crhs) := fun s =>
    h.relates.data_agrees hembed hdata htrhs hcrhs
      (fun q i q' i' hmem => h.address_agrees hwhole hpassed h.inside.1 (.tail _ hmem))
      h.exact.1 h.even.1 (fun x hx => h.zero_left x (.inl (Block.floats_rhs hx)))
      (fun x hx => h.zero_left x (.inr (Block.floats_rhs hx)))
  have hplace : ∀ s : Store α, Agrees Eq (s.locate tenv p tidx) (s.locate cenv b cidx) := fun s =>
    Relates.locate_agrees
      (h.address_agrees hwhole hpassed h.inside.1 (.head _) htp hcb htarget)
  simp only [Stmt.exec]
  refine InStep.get.bind fun s _ st' _ _ hs => ?_
  subst hs
  refine (InStep.of_agrees (hvalue s)).bind fun value _ st' _ _ hv => ?_
  subst hv
  refine InStep.get.bind fun s _ st' _ _ hs => ?_
  subst hs
  refine (InStep.of_agrees (hplace s)).bind fun place _ st' _ _ hp => ?_
  subst hp
  cases u with
  | set | add =>
    refine (InStep.modify fun s => ?_).bind fun _ _ _ _ _ _ => InStep.pure ⟨rfl, rfl⟩
    simp [Store.modifyAt]

/-- **A template and aligned code run in step.** The induction is on the template's body; a loop runs
as often on both sides, and a round of both is the same situation with one more variable. -/
theorem execAll_inStep {cat cat' : Catalog}
    (h : SideBySide template templates embed sites inner outer ρ tsc csc tenv cenv ts cs)
    (st : Store α) :
    InStep (fun _ _ => True) (execAll cat callee tenv ts) (execAll cat' callee' cenv cs) st := by
  induction ts using Block.induction generalizing ρ tsc csc tenv cenv cs st with
  | nil =>
    obtain _ | _ := h.aligned
    exact InStep.pure trivial
  | cons t ts ihs ihrest =>
    obtain _ | ⟨s, cs⟩ := cs
    · cases h.aligned
    have hhead : InStep (fun e e' => e = tenv ∧ e' = cenv) (t.exec cat callee tenv)
        (s.exec cat' callee' cenv) st := by
      obtain _ | ⟨hstmt, -⟩ := h.aligned
      cases hstmt with
      | @loop _ th ch tbody cbody n hn hcount _ _ =>
        have hbound := h.relates.bound_agrees hn hcount (checkStmt_loop.1 h.codeScoped.1.1).1
        simp only [Stmt.exec]
        refine (InStep.of_agrees hbound).bind fun m _ st' hm hm' heq => ?_
        subst heq
        refine (InStep.countUp fun k st' _ hk => ?_).bind fun _ _ _ _ _ _ => InStep.pure ⟨rfl, rfl⟩
        exact (ihs tbody rfl (h.loop hm hm' (by omega)) st').inScope
      | @guard _ te ce tbody cbody hcond _ =>
        have hagrees := h.relates.condition_agrees h.templateScoped.1.1 h.codeScoped.1.1 hcond
        simp only [Stmt.exec]
        refine (InStep.of_agrees hagrees).bind fun b _ st' hb hb' heq => ?_
        subst heq
        cases b with
        | false => exact InStep.pure ⟨rfl, rfl⟩
        | true =>
          refine InStep.bind (R := fun _ _ => True) ?_ fun _ _ _ _ _ _ => InStep.pure ⟨rfl, rfl⟩
          exact (ihs tbody rfl (h.guard hb hb') st').inScope
      | store _ _ => exact h.store_inStep hembed hwhole hpassed st
    rw [execAll, execAll]
    refine hhead.bind fun _ _ st' _ _ heq => ?_
    obtain ⟨rfl, rfl⟩ := heq
    exact ihrest h.tail st'

end SideBySide

end Matching

end LoopNest
