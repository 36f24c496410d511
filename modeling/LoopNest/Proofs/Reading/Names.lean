import LoopNest.Proofs.Contract.Schedule
import LoopNest.Proofs.Reading.Spelled

/-!
# Names along a schedule

The names that a kernel gives are those it binds and those of the templates it calls; all others stand
for one of them. A step changes the body of a kernel into another one that is valid and gives only
identifiers, if the old body does and the names that the step introduces are identifiers
(`Proc.Remade`). Copies and parts of buffers get numbered names, which are identifiers as well.
-/

namespace LoopNest

open Text Stmt

/-! ## Names that are made from names -/

theorem isIdent_append {n suffix : String} (h : isIdent n = true)
    (hsuffix : ∀ c ∈ suffix.toList, isIdentRest c = true) : isIdent (n ++ suffix) = true := by
  obtain ⟨c, cs, hlist, hc, hcs⟩ := isIdent_iff.1 h
  refine isIdent_iff.2 ⟨c, cs ++ suffix.toList, ?_, hc, List.forall_mem_append.2 ⟨hcs, hsuffix⟩⟩
  rw [String.toList_append, hlist, List.cons_append]

/-- A numbered identifier is an identifier. -/
theorem isIdent_numbered {n : String} (h : isIdent n = true) (k : Nat) :
    isIdent (n ++ "_" ++ toString k) = true := by
  refine isIdent_append (isIdent_append h (Parser.forall_mem_of_all (by decide))) fun c hc => ?_
  have hdigits : (toString k).toList = Nat.toDigits 10 k := Nat.toList_repr
  rw [hdigits] at hc
  have hdigit : c.isDigit = true := Decimal.isDigit_of_mem_toDigits hc
  simp [isIdentRest, Char.isAlphanum, hdigit]

theorem isIdent_freshName (taken : List String) {base : String} (h : isIdent base = true) :
    isIdent (freshName taken base) = true := by
  unfold freshName
  split
  · simp only
    split
    · exact isIdent_numbered h _
    · exact h
  · exact h

/-! ## Names that statements give -/

namespace Stmt

/-- The name that this very statement binds, or the template it calls. -/
def given : Stmt → List String
  | loop h _ => [h.var]
  | alloc d => [d.name]
  | call t _ => [t]
  | _ => []

/-- All names given in the statement are identifiers. -/
def Named (s : Stmt) : Prop := ∀ a ∈ s.nested, ∀ n ∈ a.given, isIdent n = true

end Stmt

/-- All names given in the block are identifiers. -/
def Block.Named (b : Block) : Prop := ∀ s ∈ b, s.Named

theorem Stmt.named_iff {s : Stmt} : s.Named ↔ (∀ n ∈ s.given, isIdent n = true) ∧
    ∀ body : Block, s.body? = some body → body.Named := by
  have hcons : (∀ a ∈ Block.nested [s], ∀ n ∈ a.given, isIdent n = true) ↔ _ :=
    Block.forall_nested_cons
  simp only [Block.forall_nested, List.forall_mem_singleton] at hcons
  exact hcons.trans (and_congr_right fun _ => and_iff_left (by simp))

namespace Stmt

theorem named_loop {h : Header} {body : Block} :
    (loop h body).Named ↔ isIdent h.var = true ∧ body.Named := by
  simp [named_iff, given, body?]

theorem named_guard {c : Expr} {body : Block} : (guard c body).Named ↔ body.Named := by
  simp [named_iff, given, body?]

theorem named_store (u : Update) (b : String) (idx : List Expr) (rhs : Expr) :
    (store u b idx rhs).Named := by
  simp [named_iff, given, body?]

theorem named_alloc {d : Decl} : (alloc d).Named ↔ isIdent d.name = true := by
  simp [named_iff, given, body?]

theorem named_call {t : String} {args : List Window} : (call t args).Named ↔ isIdent t = true := by
  simp [named_iff, given, body?]

end Stmt

theorem Stmt.Named.withBody {s : Stmt} {body : Block} (hs : s.Named) (hbody : body.Named) :
    (s.withBody body).Named := by
  cases s with
  | loop h c => exact Stmt.named_loop.2 ⟨(Stmt.named_loop.1 hs).1, hbody⟩
  | guard c d => exact Stmt.named_guard.2 hbody
  | _ => exact hs

namespace Block

variable {b b' new : Block}

theorem named_cons {s : Stmt} : Block.Named (s :: b) ↔ s.Named ∧ b.Named := List.forall_mem_cons

theorem named_append : Block.Named (b ++ b') ↔ b.Named ∧ b'.Named := List.forall_mem_append

section kept

variable (hb : b.Named)
include hb

theorem Named.splice (hnew : new.Named) (count i : Nat) : Block.Named (splice new count i b) :=
  named_append.2 ⟨named_append.2 ⟨fun s hs => hb s (List.mem_of_mem_take hs), hnew⟩,
    fun s hs => hb s (List.mem_of_mem_drop hs)⟩

/-- A change of one block keeps all other names. -/
theorem Named.edit? {f : Nat → Block → Block} (hf : ∀ i c, Block.Named c → Block.Named (f i c))
    {path : Path} (h : edit? f path b = some b') : b'.Named := by
  induction path generalizing b b' with
  | nil => cases h
  | cons i path ih =>
    cases path with
    | nil =>
      cases h
      exact hf i b hb
    | cons j path =>
      simp only [Block.edit?, Option.bind_eq_bind, Option.bind_eq_some_iff] at h
      obtain ⟨s, hs, body, hbody, body', hbody', h⟩ := h
      cases h
      have hs' := hb s (List.mem_of_getElem? hs)
      have hinner := ih ((Stmt.named_iff.1 hs').2 body hbody) hbody'
      intro t ht
      obtain ht | rfl := List.mem_or_eq_of_mem_set ht
      · exact hb t ht
      · exact hs'.withBody hinner

theorem Named.replace? (hnew : new.Named) {path : Path} (h : b.replace? path new = some b') :
    b'.Named :=
  hb.edit? (fun i _ hc => hc.splice hnew 1 i) h

theorem Named.get? {path : Path} {s : Stmt} (h : b.get? path = some s) : s.Named := by
  induction path generalizing b with
  | nil => cases h
  | cons i path ih =>
    cases path with
    | nil => exact hb s (List.mem_of_getElem? h)
    | cons j path =>
      simp only [Block.get?, Option.bind_eq_bind, Option.bind_eq_some_iff] at h
      obtain ⟨t, ht, body, hbody, h⟩ := h
      exact ih ((Stmt.named_iff.1 (hb t (List.mem_of_getElem? ht))).2 body hbody) h

theorem Named.flatMapAll {f : Stmt → List Stmt} (hf : ∀ s, s.Named → Block.Named (f s)) :
    Block.Named (flatMapAll f b) := by
  induction b using Block.induction with
  | nil => exact nofun
  | cons s rest ihBody ih =>
    obtain ⟨hs, hrest⟩ := named_cons.1 hb
    refine named_append.2 ⟨?_, ih hrest⟩
    cases s with
    | loop h body | guard c body =>
      exact hf _ (hs.withBody (ihBody body rfl ((Stmt.named_iff.1 hs).2 body rfl)))
    | _ => exact hf _ hs

/-- A change of single statements that keeps their bodies and gives identifiers. -/
theorem Named.mapAll {f : Stmt → Stmt} (hbody : ∀ s, (f s).body? = s.body?)
    (hgiven : ∀ s, (∀ n ∈ s.given, isIdent n = true) → ∀ n ∈ (f s).given, isIdent n = true) :
    Block.Named (mapAll f b) := by
  rw [mapAll_eq_flatMapAll]
  refine hb.flatMapAll fun s hs => List.forall_mem_singleton.2 ?_
  obtain ⟨hnames, hinner⟩ := Stmt.named_iff.1 hs
  exact Stmt.named_iff.2 ⟨hgiven s hnames, hbody s ▸ hinner⟩

theorem Named.substVar (v : String) (value : Expr) : (b.substVar v value).Named :=
  hb.mapAll (fun s => by cases s <;> rfl) fun s hs => by cases s <;> exact hs

theorem Named.renameBuffer (old : String) {new : String} (hnew : isIdent new = true) :
    (b.renameBuffer old new).Named := by
  refine hb.mapAll (fun s => by cases s <;> rfl) fun s hs => ?_
  cases s with
  | alloc d =>
    refine List.forall_mem_singleton.2 ?_
    show isIdent (if d.name = old then new else d.name) = true
    split
    · exact hnew
    · exact hs d.name (.head _)
  | _ => exact hs

theorem Named.prependHere (buf : String) (lead : List Expr) :
    Block.Named (Stmt.mapAll (·.prependHere buf lead) b) :=
  hb.mapAll (fun s => by cases s <;> rfl) fun s hs => by cases s <;> exact hs

theorem Named.allocated {x : String} (hx : x ∈ b.allocated) : isIdent x = true := by
  obtain ⟨s, hs, hx⟩ := List.mem_filterMap.1 hx
  have hgiven := Block.forall_nested.2 hb s hs
  cases s with
  | alloc d =>
    cases hx
    exact hgiven _ (.head _)
  | _ => cases hx

end kept

theorem Recast.named {t t' : Block} {path : Path} (h : Recast t t' path b b') (hb : b.Named)
    (ht : t.Named → t'.Named) : b'.Named := by
  induction h with
  | here => exact ht hb
  | next _ ih =>
    obtain ⟨hs, hrest⟩ := named_cons.1 hb
    exact named_cons.2 ⟨hs, ih hrest⟩
  | @inside path s body body' rest hbody _ ih =>
    obtain ⟨hs, hrest⟩ := named_cons.1 hb
    exact named_cons.2 ⟨hs.withBody (ih ((Stmt.named_iff.1 hs).2 body hbody)), hrest⟩

end Block

/-! ## Steps -/

section steps

variable {p q : Proc} {b b' : Block}

/-! ### Copies -/

theorem Block.Named.renameCopy {allocs : List String} (hb : b.Named)
    (hallocs : ∀ x ∈ allocs, isIdent x = true) (k : Nat) (taken : List String) :
    (Proc.renameCopy k allocs taken b).2.Named := by
  induction allocs generalizing taken b with
  | nil => exact hb
  | cons x allocs ih =>
    obtain ⟨hx, hallocs⟩ := List.forall_mem_cons.1 hallocs
    exact ih (hb.renameBuffer x (isIdent_freshName taken (isIdent_numbered hx k))) hallocs _

theorem Block.Named.copies {allocs : List String} (hb : b.Named)
    (hallocs : ∀ x ∈ allocs, isIdent x = true) (v : String) (n k : Nat) (taken : List String) :
    Block.Named (Proc.copies v allocs b n k taken) := by
  induction n generalizing k taken with
  | zero => exact nofun
  | succ n ih =>
    exact Block.named_append.2 ⟨(hb.substVar v _).renameCopy hallocs k taken, ih _ _⟩

/-! ### Cuts -/

theorem Block.Named.cutScopes {sizes : List String} {n : Nat} {point : Path} (hb : b.Named)
    (hcut : cutScopes sizes n point b = .ok b') : b'.Named := by
  refine cutScopes_keeps (fun {path s before after new b b'} hb hs hbody _ hcuts hreplace => ?_)
    hcut hb
  have hs := hb.get? hs
  obtain ⟨hbefore, hafter⟩ := Block.named_append.1 ((Stmt.named_iff.1 hs).2 _ hbody)
  refine hb.replace? ?_ hreplace
  have htwo : Block.Named [s.withBody before, s.withBody after] :=
    Block.named_cons.2 ⟨hs.withBody hbefore, List.forall_mem_singleton.2 (hs.withBody hafter)⟩
  cases hcuts with
  | parted => exact htwo
  | hoisted => exact Block.named_append.2 ⟨hbefore, (Block.named_cons.1 htwo).2⟩
  | sunk => exact Block.named_cons.2 ⟨(Block.named_cons.1 htwo).1, hafter⟩

/-! ### Parts -/

theorem Parts.here_keeps {ps : Parts} {s s' : Stmt} (h : ps.here s = .ok s') :
    s'.given = s.given ∧ s'.body? = s.body? := by
  unfold here at h
  obtain ⟨es, -, h⟩ := except_bind_eq_ok.1 h
  cases s with
  | store u b idx rhs =>
    obtain ⟨⟨b', idx'⟩, -, h⟩ := except_bind_eq_ok.1 h
    cases h
    exact ⟨rfl, rfl⟩
  | call t args =>
    obtain ⟨args', -, h⟩ := except_bind_eq_ok.1 h
    cases h
    exact ⟨rfl, rfl⟩
  | _ =>
    cases h
    exact ⟨rfl, rfl⟩

theorem Block.Named.parts {ps : Parts} (hb : b.Named) (h : ps.stmts b = .ok b') : b'.Named := by
  induction b using Block.induction generalizing b' with
  | nil =>
    cases h
    exact hb
  | cons s rest ihBody ih =>
    rw [Parts.stmts] at h
    obtain ⟨s', hs', h⟩ := except_bind_eq_ok.1 h
    obtain ⟨rest', hrest', h⟩ := except_bind_eq_ok.1 h
    cases h
    obtain ⟨hs, hrest⟩ := Block.named_cons.1 hb
    have hhere : ∀ s t : Stmt, s.Named → ps.here s = .ok t → t.Named := by
      intro s t hs ht
      obtain ⟨hgiven, hbody⟩ := Parts.here_keeps ht
      rw [Stmt.named_iff, hgiven, hbody]
      exact Stmt.named_iff.1 hs
    have hnil : Block.Named [] := List.forall_mem_nil _
    refine Block.named_cons.2 ⟨?_, ih hrest hrest'⟩
    cases s with
    | loop _ body | guard _ body =>
      rw [Parts.stmt] at hs'
      obtain ⟨t, ht, hs'⟩ := except_bind_eq_ok.1 hs'
      obtain ⟨body', hbody', hs'⟩ := except_bind_eq_ok.1 hs'
      cases hs'
      exact (hhere _ t (hs.withBody hnil) ht).withBody
        (ihBody body rfl ((Stmt.named_iff.1 hs).2 body rfl) hbody')
    | _ => exact hhere _ s' hs hs'

/-! ### Simplification -/

theorem Stmt.Named.withoutStore {s : Stmt} (hs : s.Named) (gone : List String) :
    Block.Named (s.withoutStore gone) := by
  unfold Stmt.withoutStore
  split
  · split
    · exact nofun
    · exact List.forall_mem_singleton.2 hs
  · exact List.forall_mem_singleton.2 hs

theorem Block.Named.dropDead (hb : b.Named) (gone : List String) :
    Block.Named (dropDead gone b) := by
  induction b generalizing gone with
  | nil => exact hb
  | cons s rest ih =>
    obtain ⟨hs, hrest⟩ := Block.named_cons.1 hb
    have hone : Block.Named (s.flatMap (·.withoutStore gone)) := by
      have hflat : Block.Named (Stmt.flatMapAll (·.withoutStore gone) [s]) :=
        Block.Named.flatMapAll (List.forall_mem_singleton.2 hs) fun t ht => ht.withoutStore gone
      exact (Block.named_append.1 hflat).1
    cases s with
    | alloc d =>
      rw [LoopNest.dropDead]
      split
      · exact Block.named_cons.2 ⟨hs, ih hrest gone⟩
      · exact ih hrest _
    | _ => exact Block.named_append.2 ⟨hone, ih hrest gone⟩

theorem Block.Named.simplifyAll (hb : b.Named) (rs : Ranges) (zeros : List String) :
    Block.Named (simplifyAll rs zeros b) := by
  induction b using Block.induction generalizing rs zeros with
  | nil => exact hb
  | cons s rest ihBody ih =>
    obtain ⟨hs, hrest⟩ := Block.named_cons.1 hb
    have hinner := (Stmt.named_iff.1 hs).2
    refine Block.named_append.2 ⟨?_, ih hrest rs zeros⟩
    have hsimple := simplified_simplify rs zeros s
    generalize s.simplify rs zeros = new at hsimple
    cases hsimple with
    | never | idle | refuted | vacuous => exact nofun
    | @once h body => exact ihBody body rfl (hinner body rfl) rs _
    | @granted c body => exact ihBody body rfl (hinner body rfl) rs zeros
    | @loop h body body' n _ hbody =>
      refine List.forall_mem_singleton.2 (Stmt.named_loop.2 ⟨(Stmt.named_loop.1 hs).1, ?_⟩)
      rw [← hbody]
      exact (ihBody body rfl (hinner body rfl) _ zeros).dropDead []
    | @guard c body body' hbody =>
      refine List.forall_mem_singleton.2 (Stmt.named_guard.2 ?_)
      rw [← hbody]
      exact (ihBody body rfl (hinner body rfl) rs zeros).dropDead []
    | store => exact List.forall_mem_singleton.2 (Stmt.named_store _ _ _ _)
    | @alloc d =>
      have hd := Stmt.named_alloc.1 hs
      exact List.forall_mem_singleton.2 (Stmt.named_alloc.2 hd)
    | call => exact List.forall_mem_singleton.2 (Stmt.named_call.2 (Stmt.named_call.1 hs))

theorem Block.Named.simplifyRounds (hp : p.body.Named) (n : Nat) :
    (p.simplifyRounds n).body.Named ∧ (p.simplifyRounds n) =
      { p with body := (p.simplifyRounds n).body } := by
  induction n generalizing p with
  | zero => exact ⟨hp, rfl⟩
  | succ n ih =>
    have hround : Block.Named (p.body.simplify ⟨p.sizes, []⟩) := (hp.simplifyAll _ []).dropDead []
    exact ih (p := { p with body := p.body.simplify ⟨p.sizes, []⟩ }) hround

end steps

/-! ## Kernels -/

/-- `q` is `p` with another body, whose names are identifiers, and it is valid. -/
def Proc.Remade (p q : Proc) : Prop :=
  q.problems none = [] ∧ ∃ b : Block, b.Named ∧ q = { p with body := b }

namespace Proc

variable {p q : Proc} {c : Catalog}

theorem remade_of_finish {b : Block} (hb : b.Named)
    (hq : Proc.finish { p with body := b } = .ok q) : p.Remade q := by
  obtain ⟨rfl, hvalid⟩ := finish_eq_ok.1 hq
  exact ⟨hvalid, b, hb, rfl⟩

variable {path : Path} {loop alloc name : String} {t : Proc}

section

variable (hp : p.body.Named)
include hp

theorem remade_of_replaceStmt {new : Block} (hnew : new.Named) (hq : p.replaceStmt path new = .ok q) :
    p.Remade q := by
  rw [replaceStmt] at hq
  obtain ⟨q', hq', hq⟩ := except_bind_eq_ok.1 hq
  obtain ⟨b, hb, rfl⟩ := withBody_eq_ok.1 hq'
  exact remade_of_finish (hp.replace? hnew hb) hq

theorem remade_split {outer inner : String} {factor : Word} {perfect : Bool}
    (houter : isIdent outer = true) (hinner : isIdent inner = true)
    (h : p.split loop factor outer inner perfect = .ok q) : p.Remade q := by
  obtain ⟨s⟩ := splitLoop_of_split h
  have hsubst : Block.Named (Block.substVar s.h.var (splitIndex factor outer inner) s.body) :=
    Block.Named.substVar (Stmt.named_loop.1 (hp.get? s.stmt)).2 s.h.var _
  have hnew : s.inside.Named := by
    obtain ⟨a, -, -, hinside⟩ | ⟨-, hinside⟩ := s.nest
    · rw [hinside]
      exact hsubst
    · rw [hinside]
      exact List.forall_mem_singleton.2 (Stmt.named_guard.2 hsubst)
  have hinside : Block.Named [.loop ⟨inner, .int factor, s.h.mode⟩ s.inside] :=
    List.forall_mem_singleton.2 (Stmt.named_loop.2 ⟨hinner, hnew⟩)
  exact remade_of_replaceStmt hp
    (List.forall_mem_singleton.2 (Stmt.named_loop.2 ⟨houter, hinside⟩)) s.replaced

theorem remade_reorder {outer inner : String} (h : p.reorder outer inner = .ok q) : p.Remade q := by
  obtain ⟨path, o, i, body, hs, hreplace⟩ := of_reorder h
  obtain ⟨ho, hbody⟩ := Stmt.named_loop.1 (hp.get? hs)
  obtain ⟨hi, hbody⟩ := Stmt.named_loop.1 (List.forall_mem_singleton.1 hbody)
  have hinside : Block.Named [.loop o body] :=
    List.forall_mem_singleton.2 (Stmt.named_loop.2 ⟨ho, hbody⟩)
  exact remade_of_replaceStmt hp
    (List.forall_mem_singleton.2 (Stmt.named_loop.2 ⟨hi, hinside⟩)) hreplace

theorem remade_fissionAfter {stmt : String} {lifts : Nat} (h : p.fissionAfter stmt lifts = .ok q) :
    p.Remade q := by
  obtain ⟨path, body, -, hbody, rfl, hvalid⟩ := of_fissionAfter h
  exact ⟨hvalid, body, hp.cutScopes hbody, rfl⟩

theorem remade_liftAlloc {lifts : Nat} {keepDims : Bool}
    (h : p.liftAlloc alloc lifts keepDims = .ok q) : p.Remade q := by
  obtain hq | ⟨⟨lift⟩⟩ := liftedAlloc_of_liftAlloc h
  · exact remade_of_finish hp hq
  obtain ⟨rest, hrecast⟩ := lift.replaced
  refine remade_of_finish (hrecast.named hp fun hold => ?_) lift.finished
  obtain ⟨houter, hrest⟩ := Block.named_cons.1 hold
  obtain ⟨rest', hdropped⟩ := lift.dropped
  have hinner : Block.Named lift.inner :=
    hdropped.named ((Stmt.named_iff.1 houter).2 _ lift.holds) fun h => (Block.named_cons.1 h).2
  have hold := Stmt.named_alloc.1 (hp.get? (stmt?_of_pickAlloc lift.picked))
  have halloc : (Stmt.alloc (lift.d.widened lift.dims)).Named := Stmt.named_alloc.2 hold
  have hmoved := Block.Named.prependHere (List.forall_mem_singleton.2 (houter.withBody hinner))
    lift.d.name (lift.dims.map fun h => Expr.var h.var)
  exact Block.named_cons.2 ⟨halloc, Block.named_append.2 ⟨hmoved, hrest⟩⟩

theorem remade_stageReduction {reduction : String} (hname : isIdent name = true)
    (h : p.stageReduction name reduction = .ok q) : p.Remade q := by
  obtain ⟨path, b, idx, rhs, d, -, -, -, -, hreplace⟩ := of_stageReduction h
  refine remade_of_replaceStmt hp ?_ hreplace
  simp only [Block.named_cons, Stmt.named_alloc, Stmt.named_store, true_and, hname]
  exact nofun

theorem remade_bindExpr {source : String} (hname : isIdent name = true)
    (h : p.bindExpr name source = .ok q) : p.Remade q := by
  obtain ⟨bound⟩ := boundExpr_of_bindExpr h
  refine remade_of_replaceStmt hp ?_ bound.replaced
  simp only [Block.named_cons, Stmt.named_alloc, Stmt.named_store, true_and, hname]
  exact nofun

theorem remade_setMemory {space : Space} (h : p.setMemory (some c.find?) alloc space = .ok q) :
    p.Remade q := by
  obtain ⟨path, d, b, hs, hb, rfl, hvalid⟩ := of_setMemory h
  have hd : isIdent d.name = true := Stmt.named_alloc.1 (hp.get? hs)
  have hnew : Block.Named [.alloc { d with mem := space }] :=
    List.forall_mem_singleton.2 (Stmt.named_alloc.2 hd)
  exact ⟨(Proc.problems_some.1 hvalid).1, b, hp.replace? hnew hb, rfl⟩

theorem remade_parToSeq (h : p.parToSeq loop = .ok q) : p.Remade q := by
  obtain ⟨path, hd, body, hs, hreplace⟩ := of_parToSeq h
  obtain ⟨hvar, hbody⟩ := Stmt.named_loop.1 (hp.get? hs)
  refine remade_of_replaceStmt hp (List.forall_mem_singleton.2 ?_) hreplace
  exact Stmt.named_loop.2 ⟨hvar, hbody⟩

theorem remade_unroll (h : p.unroll loop = .ok q) : p.Remade q := by
  unfold unroll at h
  obtain ⟨⟨path, hd, body⟩, hpick, h⟩ := except_bind_eq_ok.1 h
  have hbody := (Stmt.named_loop.1 (hp.get? (stmt?_of_pickLoop hpick))).2
  simp only at h
  split at h
  · cases h
  · refine remade_of_replaceStmt hp (hbody.copies (fun x hx => ?_) _ _ _ _) h
    exact hbody.allocated (mem_sortedNames.1 hx)

theorem remade_unrollBuffer {dim : Nat} (h : p.unrollBuffer alloc dim = .ok q) : p.Remade q := by
  obtain ⟨a⟩ := takenApart_of_unrollBuffer h
  refine ⟨a.valid, a.body, a.recast.named hp fun hold => ?_, a.made⟩
  obtain ⟨hd, hrest⟩ := Block.named_cons.1 hold
  refine Block.named_append.2 ⟨fun s hs => ?_, hrest.parts a.turned⟩
  obtain ⟨n, hn, rfl⟩ := List.mem_map.1 hs
  obtain ⟨k, -, rfl⟩ := List.mem_map.1 hn
  exact Stmt.named_alloc.2 (isIdent_numbered (Stmt.named_alloc.1 hd) k)

end

/-! ### Calls of templates -/

theorem named_of_matchAt {call : Stmt} (ht : isIdent t.name = true)
    (h : p.matchAt t path = .ok call) : call.Named := by
  unfold matchAt at h
  split at h
  · cases h
  next b _ =>
    simp only at h
    split at h
    · cases h
    obtain ⟨m, -, h⟩ := except_bind_eq_ok.1 h
    obtain ⟨args, -, h⟩ := except_bind_eq_ok.1 h
    cases h
    exact Stmt.named_call.2 ht

theorem named_splice {call : Stmt} {n : Nat} {b : Block} (hp : p.body.Named) (hcall : call.Named)
    (hb : p.body.edit? (Block.splice [call] n) path = some b) : b.Named :=
  hp.edit? (fun i _ hc => hc.splice (List.forall_mem_singleton.2 hcall) _ i) hb

theorem remade_replace (hc : ∀ t ∈ c.templates, isIdent t.name = true) {source : String}
    (hp : p.body.Named) (h : p.replace c name source = .ok q) : p.Remade q := by
  obtain ⟨t, path, call, b, ht, -, hcall, hb, rfl, hvalid⟩ := of_replace h
  have hident := hc t (List.mem_of_find?_eq_some ht)
  exact ⟨(Proc.problems_some.1 hvalid).1, b, named_splice hp (named_of_matchAt hident hcall) hb, rfl⟩

theorem remade_replaceAll (hc : ∀ t ∈ c.templates, isIdent t.name = true)
    (hvalid : p.problems none = []) (hp : p.body.Named) (h : p.replaceAll c name = .ok q) :
    p.Remade q := by
  obtain ⟨t, any, n, ht, hrounds, hq⟩ := of_replaceAll h
  have hident := hc t (List.mem_of_find?_eq_some ht)
  refine ⟨?_, replaceRounds_keeps (P := fun q _ => ∃ b : Block, b.Named ∧ q = { p with body := b })
    ?_ hrounds ⟨_, hp, rfl⟩⟩
  · obtain rfl | hq := hq
    · exact hvalid
    · exact (Proc.problems_some.1 hq).1
  · rintro _ any path call b' ⟨b, hb, rfl⟩ hcall hb'
    exact ⟨b', named_splice (p := { p with body := b }) hb (named_of_matchAt hident hcall) hb', rfl⟩

theorem remade_simplify (hvalid : p.problems none = []) (hp : p.body.Named)
    (h : Step.simplify.apply c p = .ok q) : p.Remade q := by
  rw [Step.apply] at h
  split at h
  · cases h
    exact ⟨problems_simplify hvalid, _, Block.Named.simplifyRounds hp 32⟩
  · cases h

end Proc

end LoopNest
