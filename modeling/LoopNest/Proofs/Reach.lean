import LoopNest.Eval.Run
import Mathlib

/-!
# The states a run comes to

`Block.Reaches` says that running a block comes to the statement at some path, and in which
environment and store it does so: the statements before it in its block have run to their ends, and
so have the earlier rounds of the loops around it. `Proc.Reaches` is the same for the body of a
kernel that is run on arguments.
-/

namespace LoopNest

open Exec

variable {α : Type} [Element α]
variable {rest : Block} {s : Stmt}

/-- One round of a loop. -/
def Stmt.round (c : Catalog) (callee : Env → Block → Exec α Unit) (env : Env) (h : Header)
    (body : Block) (k : Word) : Exec α Unit :=
  inScope (Stmt.execAll c callee (env.bind h.var (.index k)) body)

/-- Running a block from the environment and store given first comes to the statement at a path in
those given last. -/
inductive Block.Reaches (c : Catalog) (callee : Env → Block → Exec α Unit) :
    Env → Store α → Block → Path → Env → Store α → Prop
  | here {env : Env} {st : Store α} {s : Stmt} {rest : Block} :
    Reaches c callee env st (s :: rest) [0] env st
  | next {env env' env'' : Env} {st st' st'' : Store α} {s : Stmt} {rest : Block} {i : Nat}
      {path : Path} :
    (s.exec c callee env).run.run st = (.ok env', st') →
    Reaches c callee env' st' rest (i :: path) env'' st'' →
    Reaches c callee env st (s :: rest) ((i + 1) :: path) env'' st''
  | loop {env env'' : Env} {st st' st'' : Store α} {h : Header} {body rest : Block} {n : Word}
      {k : Nat} {path : Path} :
    env.index h.bound = .ok n → k < n.toInt.toNat →
    (countUp (Stmt.round c callee env h body) k 0).run.run st = (.ok (), st') →
    Reaches c callee (env.bind h.var (.index (Int64.ofNat k))) st' body path env'' st'' →
    Reaches c callee env st (.loop h body :: rest) (0 :: path) env'' st''
  | guard {env env'' : Env} {st st'' : Store α} {e : Expr} {body rest : Block} {path : Path} :
    env.condition e = .ok true →
    Reaches c callee env st body path env'' st'' →
    Reaches c callee env st (.guard e body :: rest) (0 :: path) env'' st''

/-- How the bodies of templates run when a kernel calls them. -/
def Catalog.callee (c : Catalog) : Env → Block → Exec α Unit := Block.exec c (c.callDepth - 1)

theorem Block.exec_callDepth (c : Catalog) (env : Env) (b : Block) :
    (Block.exec c c.callDepth env b : Exec α Unit) = inScope (Stmt.execAll c c.callee env b) := rfl

/-- The run of a kernel on arguments comes to the statement at a path. -/
def Proc.Reaches (p : Proc) (c : Catalog) (args : Args α) (path : Path) (env : Env) (st : Store α) :
    Prop :=
  ∃ frame, args.bindParams p.params = .ok frame ∧
    Block.Reaches c c.callee frame.env frame.store p.body path env st

/-! ## Index expressions of a statement -/

namespace Expr

/-- The sides of the comparisons in a guard. -/
def operands : Expr → List Expr
  | .binary .and l r => l.operands ++ r.operands
  | .binary _ l r => [l, r]
  | _ => []

/-- The indices of the reads in a data expression. -/
def subscripts : Expr → List Expr
  | .read _ idx => idx
  | .binary _ l r => l.subscripts ++ r.subscripts
  | .neg e => e.subscripts
  | _ => []

end Expr

/-- The index expressions that this very statement evaluates. -/
def Stmt.indexExprs : Stmt → List Expr
  | .loop h _ => [h.bound]
  | .guard e _ => e.operands
  | .store _ _ idx rhs => rhs.subscripts ++ idx
  | .alloc d => d.shape
  | .call _ args => args.flatMap (·.exprs)

/-- Running the block comes to a statement of which `P` holds. -/
def Block.Meets (c : Catalog) (callee : Env → Block → Exec α Unit) (P : Env → Stmt → Prop)
    (env : Env) (st : Store α) (b : Block) : Prop :=
  ∃ path env' st' s, Block.Reaches c callee env st b path env' st' ∧ b.get? path = some s ∧ P env' s

namespace Block

variable {c : Catalog} {callee : Env → Block → Exec α Unit} {env env' : Env} {st st' : Store α}
  {b : Block} {path : Path}

theorem Reaches.path_ne_nil (h : Reaches c callee env st b path env' st') : path ≠ [] := by
  cases h <;> simp

variable {P : Env → Stmt → Prop}

theorem Meets.here (hP : P env s) : Meets c callee P env st (s :: rest) :=
  ⟨[0], env, st, s, .here, rfl, hP⟩

theorem Meets.next (hs : (s.exec c callee env).run.run st = (.ok env', st'))
    (h : Meets c callee P env' st' rest) : Meets c callee P env st (s :: rest) := by
  obtain ⟨path, env'', st'', t, hreach, hget, hP⟩ := h
  cases path with
  | nil => exact absurd rfl hreach.path_ne_nil
  | cons i path =>
    exact ⟨(i + 1) :: path, env'', st'', t, .next hs hreach, by rw [get?_succ, hget], hP⟩

theorem Meets.loop {h : Header} {body : Block} {n : Word} {k : Nat} (hn : env.index h.bound = .ok n)
    (hk : k < n.toInt.toNat)
    (hrounds : (countUp (Stmt.round c callee env h body) k 0).run.run st = (.ok (), st'))
    (hb : Meets c callee P (env.bind h.var (.index (Int64.ofNat k))) st' body) :
    Meets c callee P env st (.loop h body :: rest) := by
  obtain ⟨path, env'', st'', t, hreach, hget, hP⟩ := hb
  refine ⟨0 :: path, env'', st'', t, .loop hn hk hrounds hreach, ?_, hP⟩
  rw [get?_zero hreach.path_ne_nil]
  exact hget

theorem Meets.guard {e : Expr} {body : Block} (he : env.condition e = .ok true)
    (hb : Meets c callee P env st body) : Meets c callee P env st (.guard e body :: rest) := by
  obtain ⟨path, env'', st'', t, hreach, hget, hP⟩ := hb
  refine ⟨0 :: path, env'', st'', t, .guard he hreach, ?_, hP⟩
  rw [get?_zero hreach.path_ne_nil]
  exact hget

/-- A statement alone meets what it meets at the head of a block. -/
theorem Meets.append (rest : Block) (h : Meets c callee P env st [s]) :
    Meets c callee P env st (s :: rest) := by
  obtain ⟨path, env'', st'', t, hreach, hget, hP⟩ := h
  cases hreach with
  | here => exact ⟨[0], env, st, s, .here, rfl, by simp_all [get?]⟩
  | next _ hreach => cases hreach
  | loop hn hk hrounds hreach =>
    refine Meets.loop hn hk hrounds ⟨_, env'', st'', t, hreach, ?_, hP⟩
    rw [get?_zero hreach.path_ne_nil] at hget
    exact hget
  | guard he hreach =>
    refine Meets.guard he ⟨_, env'', st'', t, hreach, ?_, hP⟩
    rw [get?_zero hreach.path_ne_nil] at hget
    exact hget

end Block

end LoopNest
