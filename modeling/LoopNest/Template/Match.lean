import LoopNest.Affine
import LoopNest.Kernel.Printer

/-!
# Matching a template against code

A template's body is unified with a run of statements. Loops match loops with the same constant
number of iterations, and every template loop variable is bound to one code loop variable. A
template access `p[t0, .., tr]` matches a code access `b[e0, .., en]` with at least as many indices:
the leading ones become points of the window and must not vary with a matched loop, and each
trailing index must be the template index plus an offset that does not vary either. The window of
`p` then starts at these offsets, and it has to be the same for every access to `p`.
-/

namespace LoopNest

/-- The words for the kind of statement in messages. -/
def Stmt.noun : Stmt → String
  | loop .. => "a loop"
  | guard .. => "a guard"
  | store .set .. => "an assignment"
  | store .add .. => "a reduction"
  | alloc _ => "an allocation"
  | call .. => "a call"

/-- Why a template does not match. -/
inductive Mismatch where
  | noStatement (path : Path)
  | tooFew (count : Nat) (path : Path)
  | statementCount (expected found : Nat)
  | statementKind (expected found : Stmt)
  | variableLoop (var : String)
  | tripCount (loop : Header) (expected : Word)
  | loopBoundTwice (var : String)
  | different (code template : Expr)
  | noParam (buf : String)
  | tooFewDims (buf param : String)
  | pointVaries (index : Expr) (buf : String)
  | templateIndex (index : Expr)
  | codeIndex (index : Expr)
  | offsetOverflow (code template : Expr)
  | offsetVaries (buf : String) (code : Expr) (param : String) (template : Expr)
  | twoWindows (param : String)
  | passedTwice (buf : String)
  | unused (param : String)
  | undeclared (buf : String)
  | type (buf : String) (ty : Scalar) (param : String) (expected : Scalar)
  | space (buf : String) (mem : Space) (param : String) (expected : Space)
  | symbolicShape (param : String)
  | windowOverflow (buf : String)

namespace Mismatch

def message : Mismatch → String
  | noStatement path => s!"no statement at {path.text}"
  | tooFew n path => s!"needs {n} statement(s) at {path.text}"
  | statementCount expected found => s!"expected {expected} statement(s), found {found}"
  | statementKind expected found => s!"expected {expected.noun}, found {found.noun}"
  | variableLoop v => s!"template loop `{v}` has a symbolic bound"
  | tripCount h expected =>
    s!"`for {h.var}` runs `{h.bound.text}` times, expected {expected.text}"
  | loopBoundTwice v => s!"`{v}` is bound to two template loops"
  | different code template => s!"`{code.text}` does not match `{template.text}`"
  | noParam b => s!"`{b}` is not a template parameter"
  | tooFewDims b p => s!"`{b}` has fewer dimensions than `{p}`"
  | pointVaries e b => s!"index `{e.text}` of `{b}` varies inside the matched loops"
  | templateIndex e => s!"template index `{e.text}` is not affine"
  | codeIndex e => s!"`{e.text}` is not affine"
  | offsetOverflow code template =>
    s!"`{code.text}` is too large to align with `{template.text}`"
  | offsetVaries b code p template =>
    s!"`{b}` index `{code.text}` does not follow `{p}` index `{template.text}`"
  | twoWindows p => s!"`{p}` would need two different windows"
  | passedTwice b => s!"`{b}` would be passed for two parameters"
  | unused p => s!"`{p}` is never accessed"
  | undeclared b => s!"`{b}` is not declared"
  | type b ty p expected => s!"`{b}` is {ty.name}, `{p}` expects {expected.name}"
  | space b mem p expected => s!"`{b}` lives in {mem.name}, `{p}` expects {expected.name}"
  | symbolicShape p => s!"`{p}` has a symbolic shape"
  | windowOverflow b => s!"window of `{b}` overflows"

end Mismatch

/-- Where a template parameter points in the code: the buffer, its leading indices and the offsets
of the trailing ones. -/
structure Site where
  buf : String
  lead : List Expr
  offsets : List Affine

/-- Are the lists equally long and related element by element? -/
def pairwise {α : Type} (related : α → α → Bool) : List α → List α → Bool
  | [], [] => true
  | a :: as, b :: bs => related a b && pairwise related as bs
  | _, _ => false

def Site.same (s t : Site) : Bool :=
  s.buf == t.buf && pairwise Expr.sameIndex s.lead t.lead && pairwise Affine.same s.offsets t.offsets

/-- What has been matched so far: the code loop variables, and the sites of template parameters. -/
structure Matching where
  bound : List String := []
  sites : List (String × Site) := []

namespace Matching

/-- The code variable of each template loop in scope, innermost first. -/
abbrev Renaming := List (String × String)

/-- A template expression in terms of the code's variables. -/
def renamed (ρ : Renaming) : Expr → Expr :=
  Expr.rebuild (fun v => .var ((ρ.lookup v).getD v)) .read

def varies (m : Matching) (e : Expr) : Bool := m.bound.any fun v => e.mentions v

/-- Index expressions and conditions match when they are equal after renaming. -/
def index (ρ : Renaming) : (template code : Expr) → Except Mismatch Unit
  | .binary o l r, .binary o' l' r' =>
    if o = o' && !o.isArithmetic then do
      index ρ l l'
      index ρ r r'
    else if (renamed ρ (.binary o l r)).sameIndex (.binary o' l' r') then .ok ()
    else .error (.different (.binary o' l' r') (.binary o l r))
  | t, c => if (renamed ρ t).sameIndex c then .ok () else .error (.different c t)

/-- The offset of a code index from a template index. -/
def offset (m : Matching) (ρ : Renaming) (param buf : String) (t c : Expr) :
    Except Mismatch Affine :=
  match Affine.ofExpr? (renamed ρ t), Affine.ofExpr? c with
  | none, _ => .error (.templateIndex t)
  | some _, none => .error (.codeIndex c)
  | some ta, some ca =>
    match ca.sub? ta with
    | none => .error (.offsetOverflow c t)
    | some lo =>
      if m.bound.any fun v => lo.mentions v then .error (.offsetVaries buf c param t) else .ok lo

/-- Record the site of a parameter; all its sites have to be the same, and no buffer is passed for
two parameters. -/
def addSite (m : Matching) (param : String) (site : Site) : Except Mismatch Matching :=
  match m.sites.lookup param with
  | some old => if old.same site then .ok m else .error (.twoWindows param)
  | none =>
    if m.sites.any (·.2.buf = site.buf) then .error (.passedTwice site.buf)
    else .ok { m with sites := (param, site) :: m.sites }

/-- Match an access to a template parameter with an access in the code. -/
def access (template : Proc) (m : Matching) (ρ : Renaming) (param : String) (tidx : List Expr)
    (buf : String) (cidx : List Expr) : Except Mismatch Matching := do
  if (template.bufferParam? param).isNone then throw (.noParam param)
  if cidx.length < tidx.length then throw (.tooFewDims buf param)
  let lead := cidx.take (cidx.length - tidx.length)
  let tail := cidx.drop (cidx.length - tidx.length)
  match lead.find? m.varies with
  | some e => throw (.pointVaries e buf)
  | none =>
    let offsets ← (tidx.zip tail).mapM fun (t, c) => m.offset ρ param buf t c
    m.addSite param ⟨buf, lead, offsets⟩

/-- Match data expressions. -/
def data (template : Proc) (ρ : Renaming) (m : Matching) :
    (template code : Expr) → Except Mismatch Matching
  | .read p tidx, c =>
    match c with
    | .read b cidx => m.access template ρ p tidx b cidx
    | _ => .error (.different c (.read p tidx))
  | .float x, c =>
    match c with
    | .float y => if x == y then .ok m else .error (.different c (.float x))
    | _ => .error (.different c (.float x))
  | .int x, c =>
    match c with
    | .int y => if x == y then .ok m else .error (.different c (.int x))
    | _ => .error (.different c (.int x))
  | .var v, c => do
    index ρ (.var v) c
    return m
  | .binary o l r, c =>
    match c with
    | .binary o' l' r' =>
      if o = o' then do
        let m ← data template ρ m l l'
        data template ρ m r r'
      else .error (.different c (.binary o l r))
    | _ => .error (.different c (.binary o l r))
  | .neg e, c =>
    match c with
    | .neg e' => data template ρ m e e'
    | _ => .error (.different c (.neg e))

mutual

/-- Match statements. -/
def stmt (template : Proc) (ρ : Renaming) (m : Matching) :
    (template code : Stmt) → Except Mismatch Matching
  | .loop th tbody, .loop ch cbody =>
    match th.bound.int? with
    | none => .error (.variableLoop th.var)
    | some n =>
      if ch.bound.constant? ≠ some n then .error (.tripCount ch n)
      else if m.bound.contains ch.var then .error (.loopBoundTwice ch.var)
      else if tbody.length ≠ cbody.length then
        .error (.statementCount tbody.length cbody.length)
      else
        stmts template ((th.var, ch.var) :: ρ) { m with bound := ch.var :: m.bound } tbody cbody
  | .guard tc tbody, .guard cc cbody => do
    index ρ tc cc
    if tbody.length ≠ cbody.length then
      .error (.statementCount tbody.length cbody.length)
    else stmts template ρ m tbody cbody
  | .store u p tidx trhs, .store u' b cidx crhs =>
    if u = u' then do
      let m ← m.access template ρ p tidx b cidx
      data template ρ m trhs crhs
    else .error (.statementKind (.store u p tidx trhs) (.store u' b cidx crhs))
  | t, c => .error (.statementKind t c)

/-- Match statement by statement. -/
def stmts (template : Proc) (ρ : Renaming) (m : Matching) :
    (template code : List Stmt) → Except Mismatch Matching
  | t :: ts, c :: cs => do
    let m ← stmt template ρ m t c
    stmts template ρ m ts cs
  | _, _ => .ok m

end

/-- The window passed for a parameter, once everything is matched. -/
def window (p : Proc) (path : Path) (m : Matching) (formal : Decl) : Except Mismatch Window := do
  match m.sites.lookup formal.name with
  | none => throw (.unused formal.name)
  | some site =>
    match p.visibleDecl? path site.buf with
    | none => throw (.undeclared site.buf)
    | some d =>
      if d.ty ≠ formal.ty then throw (.type site.buf d.ty formal.name formal.ty)
      if d.mem ≠ formal.mem then throw (.space site.buf d.mem formal.name formal.mem)
      let intervals ← (site.offsets.zip formal.shape).mapM fun (lo, extent) =>
        match extent.int? with
        | none => throw (.symbolicShape formal.name)
        | some n =>
          match lo.addConstant? n with
          | none => throw (.windowOverflow site.buf)
          | some hi => pure (WindowDim.interval lo.toExpr hi.toExpr)
      return { buf := site.buf, dims := site.lead.map .point ++ intervals }

end Matching

/-- Match a template against the statements from `path` on. The result is the call that stands for
as many statements as the template's body has. -/
def Proc.matchAt (p : Proc) (template : Proc) (path : Path) : Except Mismatch Stmt := do
  match p.container? path with
  | none => throw (.noStatement path)
  | some b =>
    let run := b.drop path.position
    if b.length < path.position + template.body.length then
      throw (.tooFew template.body.length path)
    let m ← Matching.stmts template [] {} template.body run
    return .call template.name (← template.bufferParams.mapM (m.window p path))

end LoopNest
