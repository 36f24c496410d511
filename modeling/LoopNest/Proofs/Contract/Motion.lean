import LoopNest.Proofs.Contract.Steps
import LoopNest.Proofs.Fission

/-!
# Steps that move statements

Fission moves statements out of the reach of allocations, lifting moves an allocation outwards, and
taking a register buffer apart replaces its declaration. None of these takes from a call a buffer that
it passes, nor changes its kind.
-/

namespace LoopNest

open Stmt Block

variable {find : String → Option Proc} {p q : Proc}

/-! ## Fission -/

variable {b before after : Block} {Γ : Kinds} {lifts : Nat}
variable {sizes : List String} {path point : Path} {new : Block} {stmt alloc : String}
  {keepDims : Bool}

theorem CopyNest.declared_of_ofStmt? {copies : List CopyNest}
    (h : b.mapM CopyNest.ofStmt? = some copies) : b.flatMap (·.declared) = [] := by
  refine List.flatMap_eq_nil_iff.2 fun s hs => ?_
  obtain ⟨c, -, hc⟩ := exists_of_forall₂ (mapM_eq_some.1 h).flip hs
  cases s with
  | alloc d => cases hc
  | _ => rfl

theorem declared_of_isSinkable {var : String} (h : isSinkable var before after = true) :
    after.flatMap (·.declared) = [] := by
  simp only [isSinkable, Bool.and_eq_true] at h
  have hall := List.all_eq_true.1 h.1.2
  refine List.flatMap_eq_nil_iff.2 fun s hs => ?_
  have hnested : s ∈ after.nested := by
    obtain ⟨front, back, rfl⟩ := List.append_of_mem hs
    rw [Block.nested, nestedAll_append, List.mem_append]
    exact .inr (mem_nested_cons.2 (.inl rfl))
  have hs := hall s hnested
  cases s with
  | alloc d => simp at hs
  | _ => rfl

/-- Both parts of a scope that is cut stand on their own. -/
theorem Stmt.HonoursAll.parts (h : HonoursAll find Γ (before ++ after))
    (hcheck : checkPrivate before after = .ok ()) :
    HonoursAll find Γ before ∧ HonoursAll find Γ after := by
  obtain ⟨hbefore, hafter⟩ := honoursAll_append.1 h
  refine ⟨hbefore, hafter.mono fun x k hx hk => ?_⟩
  rwa [Γ.afterAll_of_not_mem] at hk
  intro hmem
  rw [of_checkPrivate hcheck hmem] at hx
  cases hx

/-- What takes the place of a scope that is cut: two scopes, or the loop with one part of its body
ahead of it or behind it. -/
inductive Stmt.CutsTo (before after : Block) : Stmt → Block → Prop
  | parted {s : Stmt} : CutsTo before after s [s.withBody before, s.withBody after]
  | hoisted {h : Header} {body : Block} : isHoistable h.var before after = true →
    CutsTo before after (.loop h body) (before ++ [.loop h after])
  | sunk {h : Header} {body : Block} : isSinkable h.var before after = true →
    CutsTo before after (.loop h body) (.loop h before :: after)

theorem cutsTo_of_cutScope {s : Stmt} {last : Nat}
    (hcut : cutScope sizes path s before after = .ok (new, last)) :
    checkPrivate before after = .ok () ∧ s.CutsTo before after new := by
  unfold cutScope at hcut
  split at hcut
  · cases hcut
  next hcheck =>
    refine ⟨hcheck, ?_⟩
    split at hcut
    · cases hcut
      exact .parted
    · unfold cutLoop at hcut
      split at hcut
      · cases hcut
        exact .parted
      · split at hcut
        · cases hcut
        split at hcut
        next hhoist =>
          cases hcut
          exact .hoisted hhoist
        · split at hcut
          next hsink =>
            cases hcut
            exact .sunk hsink
          · cases hcut
    · cases hcut

/-- By induction on the number of scopes that are cut. -/
theorem cutScopes_keeps {P : Block → Prop}
    (hstep : ∀ {path s before after new b b'}, P b → b.get? path = some s →
      s.body? = some (before ++ after) → checkPrivate before after = .ok () →
        s.CutsTo before after new → b.replace? path new = some b' → P b') {n : Nat} {b' : Block}
    (hcut : cutScopes sizes n point b = .ok b') (hb : P b) : P b' := by
  induction n generalizing point b with
  | zero =>
    cases hcut
    exact hb
  | succ n ih =>
    rw [cutScopes] at hcut
    split at hcut
    next parent _ =>
      split at hcut
      next s hs =>
        split at hcut
        next body hbody =>
          simp only at hcut
          split at hcut
          · exact ih hcut hb
          obtain ⟨⟨new, last⟩, hnew, hcut⟩ := except_bind_eq_ok.1 hcut
          obtain ⟨hcheck, hcuts⟩ := cutsTo_of_cutScope hnew
          rw [← List.take_append_drop (point.position + 1) body] at hbody
          simp only at hcut
          split at hcut
          next hreplace => exact ih hcut (hstep hb hs hbody hcheck hcuts hreplace)
          · cases hcut
        · cases hcut
      · cases hcut
    · cases hcut

theorem Stmt.CutsTo.honours {s : Stmt} (hcuts : s.CutsTo before after new)
    (hbody : s.body? = some (before ++ after)) (hcheck : checkPrivate before after = .ok ())
    (h : s.Honours find Γ) : HonoursAll find Γ new ∧ new.flatMap (·.declared) = [] := by
  cases s with
  | guard c body =>
    cases hbody
    obtain ⟨hbefore, hafter⟩ := HonoursAll.parts h hcheck
    cases hcuts
    exact ⟨⟨hbefore, hafter, trivial⟩, rfl⟩
  | loop hd body =>
    cases hbody
    obtain ⟨hbefore, hafter⟩ := HonoursAll.parts h hcheck
    cases hcuts with
    | parted => exact ⟨⟨hbefore, hafter, trivial⟩, rfl⟩
    | hoisted hhoist =>
      have hdecl : before.flatMap (·.declared) = [] := by
        simp only [isHoistable, Bool.and_eq_true] at hhoist
        split at hhoist
        · cases hhoist.2
        next hcopies => exact CopyNest.declared_of_ofStmt? hcopies
      refine ⟨hbefore.append ⟨hafter, trivial⟩ fun x hx => ?_, ?_⟩
      · rw [hdecl] at hx
        cases hx
      · rw [List.flatMap_append, hdecl]
        rfl
    | sunk hsink =>
      refine ⟨⟨hbefore, hafter⟩, ?_⟩
      rw [List.flatMap_cons, declared_of_isSinkable hsink]
      rfl
  | _ => cases hbody

theorem honours_cutScopes {n : Nat} {b' : Block} {sc : Scope}
    (hcut : cutScopes sizes n point b = .ok b') (h : HonoursAll find sc.kinds b) :
    HonoursAll find sc.kinds b' := by
  refine cutScopes_keeps (fun {path s before after new b b'} h hs hbody hcheck hcuts hreplace => ?_)
    hcut h
  obtain ⟨b₁, hreplace₁, rest, hrecast⟩ := replaced_of_get? new hs
  obtain rfl := Option.mem_unique hreplace hreplace₁
  obtain ⟨sc', hleads⟩ := hrecast.exists_leads sc
  obtain ⟨⟨hs, hrest⟩, hback⟩ := hleads.honours find h
  obtain ⟨hhonours, hdecl⟩ := hcuts.honours hbody hcheck hs
  rw [Kinds.after_of_decl?] at hrest
  · refine hback (hhonours.append hrest fun x hx => ?_)
    rw [hdecl] at hx
    cases hx
  · cases s with
    | alloc d => cases hbody
    | _ => rfl

theorem Proc.of_fissionAfter (h : p.fissionAfter stmt lifts = .ok q) :
    ∃ path body, p.pickStmt stmt = .ok path ∧ cutScopes p.sizes lifts path p.body = .ok body ∧
      q = { p with body } ∧ q.problems none = [] := by
  unfold fissionAfter at h
  obtain ⟨path, hpath, h⟩ := except_bind_eq_ok.1 h
  simp only at h
  split at h
  · cases h
  obtain ⟨body, hbody, h⟩ := except_bind_eq_ok.1 h
  obtain ⟨rfl, hvalid⟩ := Proc.finish_eq_ok.1 h
  exact ⟨path, body, hpath, hbody, rfl, hvalid⟩

theorem Proc.problems_fissionAfter (hp : p.problems (some find) = [])
    (hq : p.fissionAfter stmt lifts = .ok q) : q.problems (some find) = [] := by
  obtain ⟨path, body, -, hbody, rfl, hvalid⟩ := of_fissionAfter hq
  exact Proc.problems_some.2 ⟨hvalid, honours_cutScopes hbody (Proc.problems_some.1 hp).2⟩

/-! ## Paths below a statement -/

namespace Block

variable {t : Stmt} {rest b b' : Block}

theorem replace?_cons_succ (i : Nat) (path : Path) (new : Block) :
    replace? (t :: rest) ((i + 1) :: path) new = (replace? rest (i :: path) new).map (t :: ·) := by
  cases path with
  | nil =>
    simp only [replace?, edit?, splice, Option.map_some, List.take_succ_cons, List.cons_append,
      List.drop_succ_cons]
  | cons j path =>
    simp only [replace?, edit?, List.getElem?_cons_succ, Option.bind_eq_bind]
    cases rest[i]? with
    | none => rfl
    | some s =>
      cases hbody : s.body? with
      | none => simp only [Option.bind_some, hbody, Option.bind_none, Option.map_none]
      | some body =>
        simp only [Option.bind_some, hbody]
        cases edit? (splice new 1) (j :: path) body <;> rfl

theorem replace?_cons_zero (j : Nat) (path : Path) (new : Block) :
    replace? (t :: rest) (0 :: j :: path) new =
      t.body?.bind fun body => (replace? body (j :: path) new).map (t.withBody · :: rest) := by
  simp only [replace?, edit?, List.getElem?_cons_zero, Option.bind_eq_bind, Option.bind_some]
  cases t.body? with
  | none => rfl
  | some body => exact (Option.map_eq_bind ..).symm

/-- What changes below a statement changes the body of the statement, and is lost when the
statement itself is replaced. -/
theorem Recast.beneath {old : Block} {outer inner : Path} (h : Recast old new path b b')
    (hpath : path = outer ++ inner) (houter : outer ≠ []) (hinner : inner ≠ []) :
    ∃ t body body', b.get? outer = some t ∧ t.body? = some body ∧
      Recast old new inner body body' ∧ b'.get? outer = some (t.withBody body') ∧
      ∀ new', b'.replace? outer new' = b.replace? outer new' := by
  obtain ⟨i, outer, rfl⟩ := List.exists_cons_of_ne_nil houter
  induction h generalizing i outer with
  | here =>
    have htail : outer ++ inner = [] := (List.cons.inj hpath).2.symm
    exact absurd (List.append_eq_nil_iff.1 htail).2 hinner
  | @next i' path t rest rest' _ ih =>
    obtain ⟨rfl, rfl⟩ := List.cons.inj hpath
    obtain ⟨t', body, body', hget, hbody, hrel, hget', hreplace⟩ := ih i' outer rfl (by simp)
    refine ⟨t', body, body', ?_, hbody, hrel, ?_, fun new' => ?_⟩
    · rw [get?_succ, hget]
    · rw [get?_succ, hget']
    · rw [replace?_cons_succ, replace?_cons_succ, hreplace]
  | @inside path t body body' rest hbody hrel ih =>
    obtain ⟨rfl, rfl⟩ := List.cons.inj hpath
    have hbody' : (t.withBody body').body? = some body' := by
      cases t <;> cases hbody <;> rfl
    have hwith : ∀ c, (t.withBody body').withBody c = t.withBody c := by
      intro c
      cases t <;> rfl
    cases outer with
    | nil => exact ⟨t, body, body', rfl, hbody, hrel, rfl, fun _ => rfl⟩
    | cons j outer =>
      obtain ⟨t', c, c', hget, hc, hrel, hget', hreplace⟩ := ih j outer rfl (by simp)
      refine ⟨t', c, c', ?_, hc, hrel, ?_, fun new' => ?_⟩
      · rw [get?_zero (by simp), hbody, Option.bind_some, hget]
      · rw [get?_zero (by simp), hbody', Option.bind_some, hget']
      · rw [replace?_cons_zero, replace?_cons_zero, hbody, hbody', Option.bind_some,
          Option.bind_some, hreplace]
        simp only [hwith]

end Block

/-! ## Lifting -/

/-- Calls find an allocation that is dropped, if they find it outside. -/
theorem Block.Recast.honours_dropped {d : Decl} {back : Block} {b' : Block} {Δ : Kinds}
    {seen : List String} (h : Recast (.alloc d :: back) back path b b') (hfresh : FreshAll seen b)
    (hle : ∀ x k, Γ x = some k → Δ x = some k) (hd : Δ d.name = some d.kind)
    (hb : HonoursAll find Γ b) : HonoursAll find Δ b' := by
  induction h generalizing Γ Δ seen with
  | here =>
    refine hb.2.mono fun x k _ hk => ?_
    by_cases hx : x = d.name
    · rw [hx] at hk ⊢
      rw [hd, ← hk]
      exact (Γ.declare_self d).symm
    · exact hle x k ((Γ.declare_of_ne d hx).symm.trans hk)
  | @next i path t rest rest' hrel ih =>
    obtain ⟨ht, hrest⟩ := hb
    have hlater : HonoursAll find Δ [t] :=
      (show HonoursAll find Γ [t] from ⟨ht, trivial⟩).mono fun x k _ => hle x k
    refine ⟨hlater.1, ih hfresh.2 (fun x k hk => ?_) ?_ hrest⟩
    · cases t with
      | alloc e =>
        by_cases hx : x = e.name
        · rw [hx] at hk ⊢
          rw [← hk]
          exact (Δ.declare_self e).trans (Γ.declare_self e).symm
        · exact (Δ.declare_of_ne e hx).trans (hle x k ((Γ.declare_of_ne e hx).symm.trans hk))
      | _ => exact hle x k hk
    · cases t with
      | alloc e =>
        -- the dropped allocation would hide this one
        have hne : d.name ≠ e.name := by
          intro heq
          have hmem : d.name ∈ binders rest :=
            hrel.mem_binders (mem_binders_of_declared (by simp [declared, decl?]))
          refine hfresh.2.not_mem_binders ?_ hmem
          simp [declared, decl?, heq]
        exact (Δ.declare_of_ne e hne).trans hd
      | _ => exact hd
  | @inside path t body body' rest hbody hrel ih =>
    obtain ⟨ht, hrest⟩ := hb
    have hrest' : HonoursAll find Δ rest := by
      cases t with
      | alloc e => cases hbody
      | _ => exact HonoursAll.mono hrest fun x k _ => hle x k
    cases t with
    | loop hd' c =>
      cases hbody
      exact ⟨ih hfresh.1.2 hle hd ht, hrest'⟩
    | guard e c =>
      cases hbody
      exact ⟨ih hfresh.1 hle hd ht, hrest'⟩
    | _ => cases hbody

/-- A window with more points in front. -/
def Window.prepended (buf : String) (lead : List Expr) (w : Window) : Window :=
  let w' := w.mapExprs (·.prependIndices buf lead)
  if w'.buf = buf then { w' with dims := lead.map .point ++ w'.dims } else w'

theorem Window.intervals_prepended (buf : String) (lead : List Expr) (w : Window) :
    (w.prepended buf lead).intervals = (w.mapExprs (·.prependIndices buf lead)).intervals := by
  have hpoints : ∀ dims : List WindowDim, Window.intervals ⟨buf, lead.map .point ++ dims⟩ =
      Window.intervals ⟨buf, dims⟩ := by
    intro dims
    induction lead with
    | nil => rfl
    | cons e lead ih => exact ih
  unfold Window.prepended
  by_cases hw : (w.mapExprs (·.prependIndices buf lead)).buf = buf
  · rw [if_pos hw]
    exact hpoints _
  · rw [if_neg hw]

theorem Stmt.moves_prependHere (buf : String) (lead : List Expr) :
    Moves (·.prependHere buf lead) id (·.prepended buf lead) where
  loop _ _ := ⟨_, rfl⟩
  guard _ _ := ⟨_, rfl⟩
  store _ _ _ _ := ⟨_, _, _, rfl⟩
  alloc _ := ⟨_, rfl, rfl, rfl⟩
  call t _ := congrArg (Stmt.call t) (List.map_map ..)
  buf w := by
    unfold Window.prepended
    by_cases hw : (w.mapExprs (·.prependIndices buf lead)).buf = buf
    · rw [if_pos hw]
      rfl
    · rw [if_neg hw]
      rfl

/-- **Calls survive more dimensions.** -/
theorem Stmt.HonoursAll.prepended (h : HonoursAll find Γ b) (buf : String) (lead : List Expr) :
    HonoursAll find Γ (Stmt.mapAll (·.prependHere buf lead) b) := by
  refine h.mapAll (moves_prependHere buf lead) (Set.injOn_id Set.univ)
    (fun _ _ hk => ⟨trivial, hk⟩) (fun _ _ => trivial) fun _ _ w _ shape hfit => ?_
  rw [Window.intervals_prepended]
  exact hfit.mapExprs_rebuild_var fun _ _ => rfl

/-- The statements that the allocation at a path is lifted out of, innermost first. -/
def Proc.lifted (p : Proc) (path : Path) (lifts : Nat) : List Stmt :=
  ((p.ancestors path).take lifts).map (·.2)

/-- The path of the outermost one, which the lifted allocation goes before. -/
def Path.lift (path : Path) (lifts : Nat) : Path := path.take (path.length - lifts)

/-- The declaration with a dimension for each loop in front. -/
def Decl.widened (d : Decl) (dims : List Header) : Decl :=
  { d with shape := dims.map (·.bound) ++ d.shape }

/-- What lifting an allocation finds and leaves: it is dropped, and declared with more dimensions
before a statement around it, which gets more indices. -/
structure Proc.LiftedAlloc (p : Proc) (alloc : String) (lifts : Nat) (keepDims : Bool) (q : Proc)
    where
  path : Path
  d : Decl
  dims : List Header
  outer : Stmt
  body : Block
  inner : Block
  b : Block
  picked : p.pickAlloc alloc = .ok (path, d)
  deep : lifts ≤ (p.ancestors path).length
  added : dims = addedDims keepDims (p.lifted path lifts)
  found : p.stmt? (path.lift lifts) = some outer
  holds : outer.body? = some body
  dropped : Replaced (.alloc d) [] (path.drop (path.length - lifts)) body inner
  replaced : Replaced outer [.alloc (d.widened dims),
    (outer.withBody inner).map (·.prependHere d.name (dims.map (.var ·.var)))] (path.lift lifts)
    p.body b
  finished : finish { p with body := b } = .ok q

theorem Proc.liftedAlloc_of_liftAlloc (hq : p.liftAlloc alloc lifts keepDims = .ok q) :
    p.finish = .ok q ∨ Nonempty (p.LiftedAlloc alloc lifts keepDims q) := by
  unfold liftAlloc at hq
  obtain ⟨⟨path, d⟩, hpick, hq⟩ := except_bind_eq_ok.1 hq
  simp only at hq
  split at hq
  · exact .inl hq
  next hlifts =>
    split at hq
    · cases hq
    next hdeep =>
      split at hq
      · cases hq
      split at hq
      · cases hq
      split at hq
      · cases hq
      obtain ⟨q', hq', hq⟩ := except_bind_eq_ok.1 hq
      obtain ⟨b', hb', rfl⟩ := withBody_eq_ok.1 hq'
      obtain ⟨b, hb, hb'⟩ := Option.bind_eq_some_iff.1 hb'
      obtain ⟨s, hs, hb'⟩ := Option.bind_eq_some_iff.1 hb'
      -- the allocation goes first, below the statement that is then replaced
      obtain ⟨b₁, hb₁, rest, hdropped⟩ := replaced_of_get? [] (stmt?_of_pickAlloc hpick)
      obtain rfl : b₁ = b := Option.mem_unique hb₁ hb
      have houter : path.take (path.length - lifts) ≠ [] := by
        intro h
        rw [h] at hs
        cases hs
      have hinner : path.drop (path.length - lifts) ≠ [] := by
        have := List.length_pos_of_ne_nil hdropped.path_ne_nil
        refine List.ne_nil_of_length_pos ?_
        rw [List.length_drop]
        omega
      obtain ⟨t, body, body', hget, hbody, hbelow, hget', hreplace⟩ :=
        hdropped.beneath (List.take_append_drop ..).symm houter hinner
      obtain rfl : t.withBody body' = s := Option.mem_unique hget' hs
      rw [hreplace] at hb'
      obtain ⟨b₂, hb₂, hreplaced⟩ := replaced_of_get? _ hget
      obtain rfl : b₂ = b' := Option.mem_unique hb₂ hb'
      exact .inr ⟨⟨path, d, _, t, body, body', b₂, hpick, Nat.le_of_not_lt hdeep, rfl, hget, hbody,
        ⟨rest, hbelow⟩, hreplaced, hq⟩⟩

theorem Proc.problems_liftAlloc (hp : p.problems (some find) = [])
    (hq : p.liftAlloc alloc lifts keepDims = .ok q) (hlin : q.body.Linear) :
    q.problems (some find) = [] := by
  obtain hq | ⟨⟨lift⟩⟩ := liftedAlloc_of_liftAlloc hq
  · rwa [(finish_eq_ok.1 hq).1]
  obtain ⟨path, d, dims, t, body, body', b, -, -, -, -, hbody, ⟨_, hbelow⟩, hreplaced, hq⟩ := lift
  obtain ⟨rfl, hout⟩ := finish_eq_ok.1 hq
  obtain ⟨rest, hrecast⟩ := hreplaced
  refine problems_of_place hp hrecast hout hlin fun sc hplace => ?_
  obtain ⟨ht, hrest⟩ := hplace.honours
  have hnew : sc.kinds d.name = none := by
    refine hplace.new.kinds_eq_none (mem_binders_of_declared ?_)
    simp [declared, decl?, Decl.widened]
  have hinside : HonoursAll find (sc.kinds.declare (d.widened dims)) [t.withBody body'] := by
    have hle : ∀ x k, sc.kinds x = some k → sc.kinds.declare (d.widened dims) x = some k := by
      intro x k hk
      refine (Kinds.declare_of_ne _ _ ?_).trans hk
      rintro rfl
      rw [show (d.widened dims).name = d.name from rfl, hnew] at hk
      cases hk
    have hd : sc.kinds.declare (d.widened dims) d.name = some d.kind :=
      sc.kinds.declare_self (d.widened dims)
    have hfresh : FreshAll [] (t :: rest) := hplace.old.freshAll (by simp)
    cases t with
    | loop h c =>
      cases hbody
      exact ⟨hbelow.honours_dropped hfresh.1.2 hle hd ht, trivial⟩
    | guard e c =>
      cases hbody
      exact ⟨hbelow.honours_dropped hfresh.1 hle hd ht, trivial⟩
    | _ => cases hbody
  refine hplace.honours_append ⟨trivial, hinside.prepended d.name _⟩ ?_
  rwa [Kinds.after_of_decl?] at hrest
  cases t with
  | alloc e => cases hbody
  | _ => rfl

end LoopNest
