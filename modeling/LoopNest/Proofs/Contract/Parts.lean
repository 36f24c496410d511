import LoopNest.Proofs.Contract.Steps

/-!
# Buffers taken apart

Taking a register buffer apart leaves out one dimension of its windows, a point, and passes the part
that the point selects. Parts are of the kind of the whole, and the intervals stay.
-/

namespace LoopNest

open Stmt Block

variable {find : String → Option Proc} {p q : Proc} {ps : Parts}

/-! ## Statements with their own expressions -/

namespace WindowDim

/-- Refilling dimensions with their own expressions gives them back. -/
theorem foldl_refill (dims acc : List WindowDim) (rest : List Expr) :
    dims.foldl (fun acc d => (acc.1 ++ [(d.refill acc.2).1], (d.refill acc.2).2))
      (acc, dims.flatMap (·.exprs) ++ rest) = (acc ++ dims, rest) := by
  induction dims generalizing acc with
  | nil => simp
  | cons d dims ih =>
    have hd : d.refill (d.exprs ++ (dims.flatMap (·.exprs) ++ rest)) =
        (d, dims.flatMap (·.exprs) ++ rest) := by
      cases d <;> rfl
    rw [List.foldl_cons, List.flatMap_cons, List.append_assoc]
    simp only [hd]
    rw [ih, List.append_assoc]
    rfl

end WindowDim

theorem Stmt.withExprs_call (t : String) (args : List Window) :
    (Stmt.call t args).withExprs (Stmt.call t args).exprs = .call t args := by
  have hfold : ∀ (args acc : List Window) (rest : List Expr),
      args.foldl (fun acc w =>
        let r := w.dims.foldl (fun acc d => (acc.1 ++ [(d.refill acc.2).1], (d.refill acc.2).2))
          ([], acc.2)
        (acc.1 ++ [{ w with dims := r.1 }], r.2)) (acc, args.flatMap (·.exprs) ++ rest) =
      (acc ++ args, rest) := by
    intro args
    induction args with
    | nil => simp
    | cons w args ih =>
      intro acc rest
      rw [List.foldl_cons, List.flatMap_cons, List.append_assoc]
      simp only [Window.exprs, WindowDim.foldl_refill, List.nil_append]
      refine (ih _ rest).trans ?_
      rw [List.append_assoc]
      rfl
  have hargs := hfold args [] []
  rw [List.append_nil, List.nil_append] at hargs
  exact congrArg (fun r => Stmt.call t r.1) hargs

/-! ## What the parts leave alone -/

namespace Parts

/-- Index expressions read nothing. -/
theorem expr_of_checkIndex {sc : Scope} {e : Expr} (h : sc.checkIndex e = []) : ps.expr e = .ok e := by
  induction e with
  | var v | int n => rfl
  | float x | read b idx => cases h
  | binary op l r ihl ihr =>
    obtain ⟨-, hl, hr⟩ := Scope.checkIndex_binary.1 h
    rw [expr, ihl hl, ihr hr]
    rfl
  | neg e ih =>
    rw [expr, ih h]
    rfl

theorem exprs_eq_ok {es : List Expr} (h : ∀ e ∈ es, ps.expr e = .ok e) : ps.exprs es = .ok es := by
  induction es with
  | nil => rfl
  | cons e es ih =>
    obtain ⟨he, hes⟩ := List.forall_mem_cons.1 h
    rw [exprs, he, ih hes]
    rfl

theorem of_select {e : Expr} {name : String} (h : ps.select e = .ok name) :
    ∃ k, e.constant? = some k ∧ ps.names[k.toInt.toNat]? = some name := by
  unfold select at h
  split at h
  · cases h
  next k hk =>
    split at h
    next hname =>
      cases h
      split at hname
      · exact ⟨k, hk, hname⟩
      · cases hname
    · cases h

/-- The part that is passed on is one of the parts. -/
theorem mem_names_of_select {e : Expr} {name : String} (h : ps.select e = .ok name) :
    name ∈ ps.names := by
  obtain ⟨k, -, hk⟩ := of_select h
  exact List.mem_of_getElem? hk

/-- A window that can be taken apart: if it is one of the buffer, it has the dimension, and its bounds
read nothing. -/
structure Admits (ps : Parts) (w : Window) : Prop where
  dim : w.buf = ps.buf → ps.dim < w.dims.length
  exprs : ∀ e ∈ w.exprs, ps.expr e = .ok e

theorem intervals_eraseIdx {dims : List WindowDim} {i : Nat} {e : Expr} (buf buf' : String)
    (h : dims[i]? = some (.point e)) :
    Window.intervals ⟨buf, dims.eraseIdx i⟩ = Window.intervals ⟨buf', dims⟩ := by
  show (dims.eraseIdx i).filterMap _ = dims.filterMap _
  induction dims generalizing i with
  | nil => cases h
  | cons d dims ih =>
    cases i with
    | zero =>
      cases h
      rfl
    | succ i =>
      rw [List.eraseIdx_cons_succ, List.filterMap_cons, List.filterMap_cons,
        ih (List.getElem?_cons_succ.symm.trans h)]

/-- The kinds of buffers in scope before and after the buffer is taken apart. -/
structure Splits (ps : Parts) (Γ Δ : Kinds) (kind : Scalar × Space) : Prop where
  whole : Γ ps.buf = some kind
  parts : ∀ n ∈ ps.names, Δ n = some kind
  keep : ∀ x k, x ≠ ps.buf → Γ x = some k → Δ x = some k

variable {Γ Δ : Kinds} {kind : Scalar × Space}

/-- A declaration of another name. -/
theorem Splits.after (h : ps.Splits Γ Δ kind) {d d' : Decl} (hname : d'.name = d.name)
    (hkind : d'.kind = d.kind) (hbuf : d.name ≠ ps.buf) (hnames : d.name ∉ ps.names) :
    ps.Splits (Γ.declare d) (Δ.declare d') kind where
  whole := (Γ.declare_of_ne d hbuf.symm).trans h.whole
  parts n hn := by
    refine (Δ.declare_of_ne d' ?_).trans (h.parts n hn)
    rintro rfl
    exact hnames (hname ▸ hn)
  keep x k hx hk := by
    by_cases hxd : x = d.name
    · rw [hxd, Kinds.declare_self] at hk
      rw [hxd, ← hname, Kinds.declare_self, hkind, hk]
    · rw [Kinds.declare_of_ne _ _ hxd] at hk
      rw [Kinds.declare_of_ne _ _ (hname ▸ hxd)]
      exact h.keep x k hx hk

theorem Splits.suits (h : ps.Splits Γ Δ kind) {w w' : Window} {f : Decl}
    (hw' : ps.window w = .ok w') (hw : ps.Admits w) (hsuits : w.Suits Γ f) : w'.Suits Δ f := by
  unfold window at hw'
  split at hw'
  next hne =>
    cases hw'
    exact hsuits.mono fun k => h.keep w.buf k hne
  next heq =>
    rw [not_not] at heq
    split at hw'
    next hnone =>
      have := hw.dim heq
      rw [List.getElem?_eq_none_iff] at hnone
      omega
    · cases hw'
    next index hpoint =>
      obtain ⟨name, hname, hw'⟩ := except_bind_eq_ok.1 hw'
      cases hw'
      refine ⟨?_, ?_⟩
      · rw [← hsuits.kind, heq, h.whole]
        exact h.parts name (mem_names_of_select hname)
      · rw [intervals_eraseIdx name w.buf hpoint]
        exact hsuits.extents

theorem Splits.takes (h : ps.Splits Γ Δ kind) {t : Proc} {args args' : List Window}
    (hargs' : args.mapM ps.window = .ok args') (hargs : ∀ w ∈ args, ps.Admits w)
    (htakes : t.Takes Γ args) : t.Takes Δ args' := by
  obtain ⟨name, params, body, instr⟩ := t
  replace hargs' := mapM_eq_ok hargs'
  unfold Proc.Takes at htakes ⊢
  simp only at htakes ⊢
  induction htakes generalizing args' with
  | nil =>
    cases hargs'
    exact .nil
  | @cons w q args params hwq _ ih =>
    obtain _ | ⟨hw', hargs'⟩ := hargs'
    obtain ⟨hw, hargs⟩ := List.forall_mem_cons.1 hargs
    obtain ⟨f, rfl, hsuits⟩ := hwq
    exact .cons ⟨f, rfl, h.suits hw' hw hsuits⟩ (ih hargs hargs')

/-- What becomes of a statement itself, its body left out. -/
theorem of_here {s s' : Stmt} (h : ps.here s = .ok s') (hs : ∀ w ∈ s.windows, ps.Admits w) :
    match s with
    | .loop _ body => ∃ hd', s' = .loop hd' body
    | .guard _ body => ∃ c', s' = .guard c' body
    | .store u .. => ∃ b' idx' rhs', s' = .store u b' idx' rhs'
    | .alloc d => ∃ shape, s' = .alloc { d with shape }
    | .call t args => ∃ args', args.mapM ps.window = .ok args' ∧ s' = .call t args' := by
  unfold here at h
  obtain ⟨es, hes, h⟩ := except_bind_eq_ok.1 h
  cases s with
  | loop hd body | guard c body =>
    cases h
    exact ⟨_, rfl⟩
  | store u b idx rhs =>
    obtain ⟨⟨b', idx'⟩, -, h⟩ := except_bind_eq_ok.1 h
    cases h
    exact ⟨_, _, _, rfl⟩
  | alloc d =>
    cases h
    exact ⟨es, rfl⟩
  | call t args =>
    have hexprs : ps.exprs (Stmt.call t args).exprs = .ok (Stmt.call t args).exprs := by
      refine exprs_eq_ok fun e he => ?_
      obtain ⟨w, hw, he⟩ := List.mem_flatMap.1 he
      exact (hs w hw).exprs e he
    rw [hexprs] at hes
    cases hes
    rw [Stmt.withExprs_call] at h
    obtain ⟨args', hargs', h⟩ := except_bind_eq_ok.1 h
    cases h
    exact ⟨args', hargs', rfl⟩

/-- **Calls survive the taking apart of a buffer.** -/
theorem honours_stmts {b b' : Block} (h : ps.stmts b = .ok b') (hsplits : ps.Splits Γ Δ kind)
    (hb : HonoursAll find Γ b) (halloc : ∀ x ∈ b.allocated, x ≠ ps.buf ∧ x ∉ ps.names)
    (hwindows : ∀ s ∈ b.nested, ∀ w ∈ s.windows, ps.Admits w) : HonoursAll find Δ b' := by
  induction b using Block.induction generalizing b' Γ Δ with
  | nil =>
    cases h
    trivial
  | cons s rest ihs ihrest =>
    rw [stmts] at h
    obtain ⟨s', hs', h⟩ := except_bind_eq_ok.1 h
    obtain ⟨rest', hrest', h⟩ := except_bind_eq_ok.1 h
    cases h
    obtain ⟨hs, hrest⟩ := hb
    obtain ⟨hallocHere, hallocBody, hallocRest⟩ := forall_allocated_cons.1 halloc
    obtain ⟨hhere, hinside, hlater⟩ := forall_nested_cons.1 hwindows
    cases s with
    | loop head body | guard head body =>
      rw [stmt] at hs'
      obtain ⟨s₁, hs₁, hs'⟩ := except_bind_eq_ok.1 hs'
      obtain ⟨body', hbody', hs'⟩ := except_bind_eq_ok.1 hs'
      obtain ⟨head', rfl⟩ := of_here hs₁ (by simp [Stmt.windows])
      cases hs'
      exact ⟨ihs body rfl hbody' hsplits hs (hallocBody body rfl) (hinside body rfl),
        ihrest hrest' hsplits hrest hallocRest hlater⟩
    | store u buf idx rhs =>
      rw [stmt] at hs'
      obtain ⟨buf', idx', rhs', rfl⟩ := of_here hs' hhere
      exact ⟨trivial, ihrest hrest' hsplits hrest hallocRest hlater⟩
    | alloc d =>
      rw [stmt] at hs'
      obtain ⟨shape, rfl⟩ := of_here hs' hhere
      obtain ⟨hbuf, hnames⟩ := hallocHere d.name (.head _)
      exact ⟨trivial, ihrest hrest' (hsplits.after rfl rfl hbuf hnames) hrest hallocRest hlater⟩
    | call name args =>
      rw [stmt] at hs'
      obtain ⟨args', hargs', rfl⟩ := of_here hs' hhere
      obtain ⟨t, ht, htakes⟩ := hs
      exact ⟨⟨t, ht, hsplits.takes hargs' hhere htakes⟩,
        ihrest hrest' hsplits hrest hallocRest hlater⟩

end Parts

/-- Well-scoped windows of a buffer have its rank, and bounds that read nothing. -/
theorem Stmt.WellScopedAll.admits {templates : Scope.Templates} {sc : Scope} {b : Block} {d : Decl}
    (h : WellScopedAll templates sc b) (hd : sc.buffer? ps.buf = some d) (hdim : ps.dim < d.rank)
    (hb : ∀ x ∈ b.allocated, x ≠ ps.buf) : ∀ s ∈ b.nested, ∀ w ∈ s.windows, ps.Admits w := by
  induction b using Block.induction generalizing sc with
  | nil => exact List.forall_mem_nil _
  | cons s rest ihs ihrest =>
    obtain ⟨hs, hrest⟩ := h
    obtain ⟨hbHere, hbBody, hbRest⟩ := forall_allocated_cons.1 hb
    have hd' : (sc.after s).buffer? ps.buf = some d := by
      cases s with
      | alloc e =>
        have hne : e.name ≠ ps.buf := hbHere _ (.head _)
        rw [Scope.after, Scope.buffer?_addBuffer, if_neg hne, hd]
      | _ => exact hd
    refine forall_nested_cons.2 ⟨?_, fun body hbody => ?_, ihrest hrest hd' hbRest⟩
    · cases s with
      | call name args =>
        intro w hw
        have hwindow := List.flatMap_eq_nil_iff.1 (List.append_eq_nil_iff.1 hs).1 w hw
        obtain ⟨⟨d', hd', hrank⟩, hexprs⟩ := Scope.checkWindow_eq_nil.1 hwindow
        refine ⟨fun hbuf => ?_, fun e he => Parts.expr_of_checkIndex (hexprs e he)⟩
        rw [hbuf, hd] at hd'
        obtain rfl := Option.some.inj hd'
        rwa [← hrank]
      | _ => exact List.forall_mem_nil _
    · cases s with
      | loop h body | guard c body =>
        cases hbody
        exact ihs body rfl hs.2 hd (hbBody body rfl)
      | _ => cases hbody

/-! ## The step -/

/-- The declarations of the parts. -/
def Decl.parts (d : Decl) (dim : Nat) (names : List String) : Block :=
  names.map fun name => .alloc { d with name, shape := d.shape.eraseIdx dim }

theorem Decl.honours_parts (d : Decl) (dim : Nat) (names : List String) (Γ : Kinds) :
    HonoursAll find Γ (d.parts dim names) := by
  induction names generalizing Γ with
  | nil => trivial
  | cons n names ih => exact ⟨trivial, ih _⟩

theorem Decl.afterAll_parts (d : Decl) (dim : Nat) (names : List String) (Γ : Kinds) (x : String) :
    Γ.afterAll (d.parts dim names) x = if x ∈ names then some d.kind else Γ x := by
  induction names generalizing Γ with
  | nil => rfl
  | cons n names ih =>
    refine (ih (Γ.declare { d with name := n, shape := d.shape.eraseIdx dim })).trans ?_
    by_cases hx : x ∈ names
    · rw [if_pos hx, if_pos (List.mem_cons_of_mem n hx)]
    · rw [if_neg hx]
      by_cases hxn : x = n
      · rw [hxn, if_pos (.head _)]
        exact Kinds.declare_self ..
      · rw [Kinds.declare_of_ne _ _ hxn, if_neg (by simp [hx, hxn])]

/-- The names of the first `n` parts. -/
def Decl.partNames (d : Decl) (n : Nat) : List String :=
  (List.range n).map fun k => d.name ++ "_" ++ toString k

/-- What taking a buffer apart finds and leaves: from its allocation on the block gets the parts. -/
structure Proc.TakenApart (p : Proc) (alloc : String) (dim : Nat) (q : Proc) where
  path : Path
  d : Decl
  extent : Expr
  count : Word
  rest : Block
  rest' : Block
  body : Block
  picked : p.pickAlloc alloc = .ok (path, d)
  found : d.shape[dim]? = some extent
  constant : extent.constant? = some count
  fresh : ∀ n ∈ d.partNames count.toInt.toNat, n ∉ p.boundNames
  turned : (Parts.mk d.name dim (d.partNames count.toInt.toNat)).stmts rest = .ok rest'
  recast : Recast (.alloc d :: rest) (d.parts dim (d.partNames count.toInt.toNat) ++ rest')
    path p.body body
  made : q = { p with body := body }
  valid : q.problems none = []

namespace Proc.TakenApart

variable {alloc : String} {dim : Nat}

def names (a : p.TakenApart alloc dim q) : List String := a.d.partNames a.count.toInt.toNat

def parts (a : p.TakenApart alloc dim q) : Parts := ⟨a.d.name, dim, a.names⟩

theorem dim_lt (a : p.TakenApart alloc dim q) : dim < a.d.rank :=
  (List.getElem?_eq_some_iff.1 a.found).1

end Proc.TakenApart

theorem Proc.takenApart_of_unrollBuffer {alloc : String} {dim : Nat}
    (hq : p.unrollBuffer alloc dim = .ok q) : Nonempty (p.TakenApart alloc dim q) := by
  unfold unrollBuffer at hq
  obtain ⟨⟨path, d⟩, hpick, hq⟩ := except_bind_eq_ok.1 hq
  simp only at hq
  split at hq
  · cases hq
  split at hq
  · cases hq
  next extent hdim =>
    split at hq
    · cases hq
    next n hn =>
      obtain ⟨⟨⟩, hnames, hq⟩ := except_bind_eq_ok.1 hq
      obtain ⟨front, rest, hposition, hcontainer, hedit⟩ :=
        recast_of_get? (stmt?_of_pickAlloc hpick)
      simp only [hcontainer p rfl] at hq
      obtain ⟨rest', hrest', hq⟩ := except_bind_eq_ok.1 hq
      obtain ⟨q', hq', hq⟩ := except_bind_eq_ok.1 hq
      obtain ⟨b', hb', rfl⟩ := withBody_eq_ok.1 hq'
      obtain ⟨rfl, hout⟩ := finish_eq_ok.1 hq
      have hdrop : (front ++ Stmt.alloc d :: rest).drop (front.length + 1) = rest := by simp
      rw [hposition, hdrop] at hrest'
      rw [hposition, List.take_left, List.append_assoc] at hb'
      obtain ⟨b₁, hb₁, hrecast⟩ := hedit (d.parts dim (d.partNames n.toInt.toNat) ++ rest')
      obtain rfl : b₁ = b' := Option.mem_unique (hb₁ _ rfl) hb'
      exact ⟨⟨path, d, extent, n, rest, rest', b₁, hpick, hdim, hn,
        fun x hx => requireFresh_eq_ok.1 (forM_eq_ok hnames x hx), hrest', hrecast, rfl, hout⟩⟩

theorem Proc.problems_unrollBuffer {alloc : String} {dim : Nat} (hp : p.problems (some find) = [])
    (hq : p.unrollBuffer alloc dim = .ok q) (hlin : q.body.Linear) :
    q.problems (some find) = [] := by
  obtain ⟨a⟩ := takenApart_of_unrollBuffer hq
  obtain ⟨path, d, extent, n, rest, rest', b', -, hdim, -, hnames, hstmts, hrecast, rfl, hout⟩ := a
  have hdim : dim < d.rank := (List.getElem?_eq_some_iff.1 hdim).1
  generalize d.partNames n.toInt.toNat = names at hnames hstmts hrecast
  refine problems_of_place hp hrecast hout hlin fun sc hplace => ?_
  refine honoursAll_append.2 ⟨d.honours_parts dim names _, ?_⟩
  have hrest : WellScopedAll (some find) (sc.addBuffer d) rest := hplace.old.2
  have hbuf : (sc.addBuffer d).buffer? d.name = some d := by
    rw [Scope.buffer?_addBuffer, if_pos rfl]
  have halloc : ∀ x ∈ allocated rest, x ≠ d.name ∧ x ∉ names := by
    intro x hx
    have hbinds := mem_binders_of_allocated hx
    refine ⟨?_, fun hmem => hnames x hmem (hplace.binders x ?_)⟩
    · rintro rfl
      have hnone := hrest.kinds_eq_none hbinds
      rw [Scope.kinds, hbuf] at hnone
      cases hnone
    · rw [binders_cons]
      exact List.mem_append_right _ hbinds
  have hsplits : Parts.Splits ⟨d.name, dim, names⟩ (sc.kinds.declare d)
      (sc.kinds.afterAll (d.parts dim names)) d.kind := by
    refine ⟨Kinds.declare_self .., fun n hn => ?_, fun x k hx hk => ?_⟩
    · rw [d.afterAll_parts, if_pos hn]
    · rw [Kinds.declare_of_ne _ _ hx] at hk
      rw [d.afterAll_parts, if_neg, hk]
      intro hmem
      rw [hplace.kinds_eq_none (hnames x hmem)] at hk
      cases hk
  exact Parts.honours_stmts hstmts hsplits hplace.honours.2 halloc
    (hrest.admits hbuf hdim fun x hx => (halloc x hx).1)

end LoopNest
