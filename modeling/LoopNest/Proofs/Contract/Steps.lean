import LoopNest.Proofs.Contract.Place
import LoopNest.Schedule.Step

/-!
# Steps that replace one statement

Splitting, interchange, the change of a mode, staging and unrolling replace a statement of the kernel
and check the result with all calls left out. Still the calls keep honouring their templates.
-/

namespace LoopNest

open Stmt Block

variable {find : String → Option Proc}
variable {Γ : Kinds} {source : String} {b : Block} {perfect : Bool}

theorem refusable_eq_ok {α : Type} {x : Except StepError α} {a : α} :
    refusable x = .ok a ↔ x = .ok a := by
  cases x <;> simp [refusable]

/-! ## Windows -/

theorem Window.intervals_mapExprs (f : Expr → Expr) (w : Window) :
    (w.mapExprs f).intervals = w.intervals.map (Prod.map f f) := by
  obtain ⟨buf, dims⟩ := w
  show (dims.map _).filterMap _ = (dims.filterMap _).map _
  induction dims with
  | nil => rfl
  | cons d dims ih =>
    cases d with
    | point e => exact ih
    | interval lo hi => exact congrArg _ ih

variable {shape : List Expr} {w : Window} {onRead : String → List Expr → Expr}

theorem ExtentsFit.map {is : List (Expr × Expr)} {f : Expr → Expr} (h : ExtentsFit is shape)
    (hf : ∀ i ∈ is, ∀ n, Scope.extent? i.1 i.2 = some n → Scope.extent? (f i.1) (f i.2) = some n) :
    ExtentsFit (is.map (Prod.map f f)) shape := by
  refine List.forall₂_map_left_iff.2 (List.forall₂_iff_zip.2 ⟨h.length_eq, fun {i e} hie => ?_⟩)
  obtain ⟨n, hn, he⟩ := List.forall₂_zip h hie
  exact ⟨n, hf i (List.of_mem_zip hie).1 n hn, he⟩

/-- Windows whose bounds get other expressions for variables keep their extents. -/
theorem ExtentsFit.mapExprs_rebuild {onVar : String → Expr} (h : ExtentsFit w.intervals shape)
    (hlin : (w.mapExprs (·.rebuild onVar onRead)).Linear) :
    ExtentsFit (w.mapExprs (·.rebuild onVar onRead)).intervals shape := by
  rw [Window.Linear, Window.intervals_mapExprs] at hlin
  rw [Window.intervals_mapExprs]
  exact h.map fun i hi n hn => Scope.extent?_rebuild hn (hlin _ (List.mem_map_of_mem hi))

theorem Stmt.moves_substVar (v : String) (value : Expr) :
    Moves (·.mapExprs (·.substVar v value)) id (·.mapExprs (·.substVar v value)) where
  loop _ _ := ⟨_, rfl⟩
  guard _ _ := ⟨_, rfl⟩
  store _ _ _ _ := ⟨_, _, _, rfl⟩
  alloc _ := ⟨_, rfl, rfl, rfl⟩
  call _ _ := rfl
  buf _ := rfl

/-- **Calls survive substitution.** -/
theorem Stmt.HonoursAll.substVar (h : HonoursAll find Γ b) (v : String) (value : Expr)
    (hlin : (b.substVar v value).Linear) : HonoursAll find Γ (b.substVar v value) :=
  h.mapAll (moves_substVar v value) (Set.injOn_id Set.univ) (fun _ _ hk => ⟨trivial, hk⟩)
    (fun _ _ => trivial) fun _ hs _ hw _ hfit =>
      hfit.mapExprs_rebuild ((moves_substVar v value).linear hlin hs hw)

namespace Proc

variable {p q : Proc}

/-! ## Loops -/

/-- What splitting a loop finds and leaves: an outer loop with a new bound and, inside the inner one,
the old body with another index, under a guard unless the split is perfect. -/
structure SplitLoop (p : Proc) (loop : String) (factor : Word) (outer inner : String) (q : Proc) where
  path : Path
  h : Header
  body : Block
  bound : Expr
  inside : Block
  picked : p.pickLoop loop = .ok (path, h, body)
  positive : 0 < factor
  distinct : outer ≠ inner
  freshOuter : outer ∉ p.boundNames
  freshInner : inner ∉ p.boundNames
  nest :
    (∃ a, (Affine.ofExpr? h.bound).bind (·.quotient? factor) = some a ∧ bound = a.toExpr ∧
      inside = body.substVar h.var (splitIndex factor outer inner)) ∨
    (roundedUp h.bound factor = .ok bound ∧
      inside = [.guard (.binary .lt (splitIndex factor outer inner) h.bound)
        (body.substVar h.var (splitIndex factor outer inner))])
  replaced : p.replaceStmt path [.loop ⟨outer, bound, h.mode⟩
    [.loop ⟨inner, .int factor, h.mode⟩ inside]] = .ok q

variable {loop outer inner name : String} {factor : Word}

theorem SplitLoop.stmt (s : p.SplitLoop loop factor outer inner q) :
    p.stmt? s.path = some (.loop s.h s.body) :=
  stmt?_of_pickLoop s.picked

theorem splitLoop_of_split (hq : p.split loop factor outer inner perfect = .ok q) :
    Nonempty (p.SplitLoop loop factor outer inner q) := by
  by_cases hfactor : factor ≤ 0
  · simp only [split, hfactor, if_true] at hq
    cases hq
  simp only [split, hfactor, if_false] at hq
  obtain ⟨⟨path, h, body⟩, hpick, hq⟩ := except_bind_eq_ok.1 hq
  by_cases hnames : outer = inner
  · rw [if_pos hnames] at hq
    cases hq
  rw [if_neg hnames] at hq
  obtain ⟨_, houter, hq⟩ := except_bind_eq_ok.1 hq
  obtain ⟨_, hinner, hq⟩ := except_bind_eq_ok.1 hq
  -- all but the nest itself is settled
  have hnest := fun bound inside => SplitLoop.mk (q := q) path h body bound inside
    (refusable_eq_ok.1 hpick) (Int64.not_le.1 hfactor) hnames
    (requireFresh_eq_ok.1 (refusable_eq_ok.1 houter))
    (requireFresh_eq_ok.1 (refusable_eq_ok.1 hinner))
  split at hq
  · split at hq
    next a ha => exact ⟨hnest _ _ (.inl ⟨a, ha, rfl, rfl⟩) (refusable_eq_ok.1 hq)⟩
    · cases hq
  · obtain ⟨bound, hbound, hq⟩ := except_bind_eq_ok.1 hq
    exact ⟨hnest bound _ (.inr ⟨hbound, rfl⟩) (refusable_eq_ok.1 hq)⟩

theorem of_reorder (h : p.reorder outer inner = .ok q) : ∃ path o i body,
    p.stmt? path = some (.loop o [.loop i body]) ∧
      p.replaceStmt path [.loop i [.loop o body]] = .ok q := by
  unfold reorder at h
  obtain ⟨⟨path, o, body⟩, hpick, h⟩ := except_bind_eq_ok.1 h
  obtain ⟨sel, -, h⟩ := except_bind_eq_ok.1 h
  simp only at h
  split at h
  next i body _ =>
    split at h
    · split at h
      · cases h
      · exact ⟨path, o, i, body, stmt?_of_pickLoop hpick, h⟩
    · cases h
  · cases h

theorem of_parToSeq (h : p.parToSeq loop = .ok q) : ∃ path hd body,
    p.stmt? path = some (.loop hd body) ∧
      p.replaceStmt path [.loop { hd with mode := .seq } body] = .ok q := by
  unfold parToSeq at h
  obtain ⟨⟨path, hd, body⟩, hpick, h⟩ := except_bind_eq_ok.1 h
  simp only at h
  split at h
  · cases h
  · exact ⟨path, hd, body, stmt?_of_pickLoop hpick, h⟩

/-! ## Temporaries -/

theorem of_stageReduction (h : p.stageReduction name source = .ok q) :
    ∃ path b idx rhs d, p.pickStmt source = .ok path ∧
      p.stmt? path = some (.store .add b idx rhs) ∧ name ∉ p.boundNames ∧
      p.visibleDecl? path b = some d ∧ p.replaceStmt path
        [.alloc { name, ty := d.ty, shape := [], mem := .dram },
         .store .set name [] (.read b idx),
         .store .add name [] rhs,
         .store .set b idx (.read name [])] = .ok q := by
  unfold stageReduction at h
  obtain ⟨path, hpath, h⟩ := except_bind_eq_ok.1 h
  split at h
  next b idx rhs hs =>
    obtain ⟨_, hfresh, h⟩ := except_bind_eq_ok.1 h
    split at h
    · cases h
    next d hd => exact ⟨path, b, idx, rhs, d, hpath, hs, requireFresh_eq_ok.1 hfresh, hd, h⟩
  · cases h

/-- What a step has found that binds an expression: the store whose value it is in, the way down to
it, and the type of the temporary. -/
structure BoundExpr (p : Proc) (name source : String) (q : Proc) where
  sel : Selector
  path : Path
  steps : List Nat
  update : Update
  buf : String
  idx : List Expr
  rhs : Expr
  value : Expr
  ty : Scalar
  selected : selector source = .ok sel
  resolved : p.resolveExpr? sel = .ok (path, idx.length, steps)
  stmt : p.stmt? path = some (.store update buf idx rhs)
  outside : rhs.leadsIntoIndex steps = false
  found : rhs.get? steps = some value
  fresh : name ∉ p.boundNames
  typed : p.valueType path value = .ok ty
  replaced : p.replaceStmt path
    [.alloc { name, ty, shape := [], mem := .dram },
     .store .set name [] value,
     .store update buf idx ((Expr.set? (.read name []) steps rhs).getD rhs)] = .ok q

theorem boundExpr_of_bindExpr (h : p.bindExpr name source = .ok q) :
    Nonempty (p.BoundExpr name source q) := by
  unfold bindExpr at h
  obtain ⟨sel, hsel, h⟩ := except_bind_eq_ok.1 h
  simp only at h
  cases hcursor : p.resolveExpr? sel with
  | error e =>
    rw [hcursor] at h
    cases h
  | ok cursor =>
    obtain ⟨path, slot, steps⟩ := cursor
    simp only [hcursor, pure_bind] at h
    split at h
    next u b idx rhs hs =>
      split at h
      · cases h
      next hslot =>
        simp only [Bool.or_eq_true, decide_eq_true_eq, not_or, not_not, Bool.not_eq_true] at hslot
        obtain ⟨rfl, hout⟩ := hslot
        split at h
        · cases h
        next value hvalue =>
          split at h
          · cases h
          obtain ⟨_, hfresh, h⟩ := except_bind_eq_ok.1 h
          obtain ⟨ty, hty, h⟩ := except_bind_eq_ok.1 h
          exact ⟨⟨sel, path, steps, u, b, idx, rhs, value, ty, hsel, hcursor, hs, hout, hvalue,
            requireFresh_eq_ok.1 hfresh, hty, h⟩⟩
    · cases h

/-! ## What stays valid -/

variable (hp : p.problems (some find) = []) (hlin : q.body.Linear)
include hp hlin

theorem problems_split (hq : p.split loop factor outer inner perfect = .ok q) :
    q.problems (some find) = [] := by
  obtain ⟨s⟩ := splitLoop_of_split hq
  refine problems_replaceStmt hp s.stmt s.replaced hlin fun sc rest hplace => ?_
  obtain ⟨hbody, hrest⟩ := hplace.honours
  have hlinBody : s.inside.Linear :=
    (linear_cons.1 ((linear_cons.1 hplace.linear).2.1 _ rfl)).2.1 _ rfl
  refine ⟨⟨?_, trivial⟩, hrest⟩
  obtain ⟨a, -, -, hinside⟩ | ⟨-, hinside⟩ := s.nest
  · rw [hinside] at hlinBody ⊢
    exact HonoursAll.substVar hbody s.h.var _ hlinBody
  · rw [hinside] at hlinBody ⊢
    exact ⟨HonoursAll.substVar hbody s.h.var _ ((linear_cons.1 hlinBody).2.1 _ rfl), trivial⟩

theorem problems_reorder (hq : p.reorder outer inner = .ok q) : q.problems (some find) = [] := by
  obtain ⟨path, o, i, body, hs, hreplace⟩ := of_reorder hq
  refine problems_replaceStmt hp hs hreplace hlin fun sc rest hplace => ?_
  obtain ⟨⟨hbody, -⟩, hrest⟩ := hplace.honours
  exact ⟨⟨hbody, trivial⟩, hrest⟩

theorem problems_parToSeq (hq : p.parToSeq loop = .ok q) : q.problems (some find) = [] := by
  obtain ⟨path, hd, body, hs, hreplace⟩ := of_parToSeq hq
  exact problems_replaceStmt hp hs hreplace hlin fun sc rest hplace => hplace.honours

theorem problems_stageReduction (hq : p.stageReduction name source = .ok q) :
    q.problems (some find) = [] := by
  obtain ⟨path, b, idx, rhs, d, -, hs, -, -, hreplace⟩ := of_stageReduction hq
  refine problems_replaceStmt hp hs hreplace hlin fun sc rest hplace => ?_
  exact hplace.honours_append ⟨trivial, trivial, trivial, trivial, trivial⟩ hplace.honours.2

theorem problems_bindExpr (hq : p.bindExpr name source = .ok q) : q.problems (some find) = [] := by
  obtain ⟨bound⟩ := boundExpr_of_bindExpr hq
  refine problems_replaceStmt hp bound.stmt bound.replaced hlin fun sc rest hplace => ?_
  exact hplace.honours_append ⟨trivial, trivial, trivial, trivial⟩ hplace.honours.2

end Proc

/-! ## Unrolling -/

theorem natText_injective : Function.Injective (toString : Nat → String) := by
  intro m n h
  have hdigits : Nat.toDigits 10 m = Nat.toDigits 10 n := by
    rw [← Nat.toList_repr, ← Nat.toList_repr]
    exact congrArg String.toList h
  rw [← Nat.ofDigitChars_ten_toDigits (n := m), hdigits, Nat.ofDigitChars_ten_toDigits]

/-- There is always a free name. -/
theorem freshName_not_mem (taken : List String) (base : String) : freshName taken base ∉ taken := by
  unfold freshName
  split
  · simp only
    split
    next i hi => simpa using List.find?_some hi
    next hnone =>
      -- otherwise more different names than there are would be taken
      exfalso
      let numbered (i : Nat) : String := base ++ "_" ++ toString (i + 1)
      have hinj : Function.Injective numbered := by
        intro i j hij
        have hlist := congrArg String.toList hij
        simp only [numbered, String.toList_append, List.append_cancel_left_eq] at hlist
        exact Nat.succ_injective (natText_injective (String.toList_injective hlist))
      have hsub : (List.range (taken.length + 1)).map numbered ⊆ taken := by
        intro x hx
        obtain ⟨i, hi, rfl⟩ := List.mem_map.1 hx
        have htaken := List.find?_eq_none.1 hnone i hi
        rwa [Bool.not_eq_true, Bool.not_eq_false', List.contains_iff_mem] at htaken
      have hle := ((List.nodup_range.map hinj).subperm hsub).length_le
      rw [List.length_map, List.length_range] at hle
      omega
  next hbase => simpa using hbase

theorem Stmt.moves_renameBuffer (old new : String) :
    Moves (fun s => (s.mapBuffers fun n => if n = old then new else n).mapExprs
        (·.renameBuffer old new))
      (fun n => if n = old then new else n)
      (fun w => Window.mapExprs (·.renameBuffer old new)
        { w with buf := if w.buf = old then new else w.buf }) :=
  moves_reword _ _

/-- Windows whose bounds get other reads keep their extents. -/
theorem ExtentsFit.mapExprs_rebuild_var (h : ExtentsFit w.intervals shape)
    (hread : ∀ b idx, Affine.ofExpr? (onRead b idx) = none) :
    ExtentsFit (w.mapExprs (·.rebuild .var onRead)).intervals shape := by
  rw [Window.intervals_mapExprs]
  refine h.map fun i _ n hn => ?_
  simpa only [Scope.extent?, Affine.ofExpr?_rebuild_var hread] using hn

theorem Window.linear_of_mapExprs (hread : ∀ b idx, Affine.ofExpr? (onRead b idx) = none)
    (h : (w.mapExprs (·.rebuild .var onRead)).Linear) : w.Linear := by
  intro i hi
  rw [Window.Linear, Window.intervals_mapExprs] at h
  have hform := h _ (List.mem_map_of_mem hi)
  simpa only [Prod.map, Scope.extentForm?, Affine.ofExpr?_rebuild_var hread] using hform

/-- **Calls survive the renaming of an allocation** to a new name. -/
theorem Stmt.HonoursAll.renameBuffer {old new : String} (h : HonoursAll find Γ b)
    (hold : Γ old = none) (hnew : Γ new = none) (hb : new ∉ b.allocated) :
    HonoursAll find Γ (b.renameBuffer old new) := by
  refine h.mapAll (S := {x | x ≠ new}) (moves_renameBuffer old new) ?_ (fun x k hk => ⟨?_, ?_⟩)
    (fun x hx => ?_) fun s _ w _ shape hfit => ?_
  · intro x hx y hy hxy
    simp only at hxy
    split at hxy
    · split at hxy
      · simp_all
      · exact absurd hxy.symm hy
    · split at hxy
      · exact absurd hxy hx
      · exact hxy
  · rintro rfl
    rw [hnew] at hk
    cases hk
  · have hx : x ≠ old := by
      rintro rfl
      rw [hold] at hk
      cases hk
    rw [if_neg hx, hk]
  · rintro rfl
    exact hb hx
  · exact ExtentsFit.mapExprs_rebuild_var
      (w := { w with buf := if w.buf = old then new else w.buf }) hfit fun _ _ => rfl

namespace Proc

variable {p q : Proc} {k : Nat} {allocs taken : List String} {body : Block}

/-- The allocations of a copy get new names one after the other. -/
theorem honours_renameCopy (h : HonoursAll find Γ body) (hallocs : ∀ x ∈ allocs, Γ x = none)
    (htaken : ∀ x ∉ taken, Γ x = none) (hbody : ∀ x ∈ body.allocated, x ∈ taken) :
    HonoursAll find Γ (renameCopy k allocs taken body).2 := by
  induction allocs generalizing taken body with
  | nil => exact h
  | cons name allocs ih =>
    obtain ⟨hname, hallocs⟩ := List.forall_mem_cons.1 hallocs
    let new := freshName taken (name ++ "_" ++ toString k)
    have hnew : new ∉ taken := freshName_not_mem _ _
    have hrenamed : HonoursAll find Γ (body.renameBuffer name new) :=
      h.renameBuffer hname (htaken new hnew) fun hmem => hnew (hbody new hmem)
    refine ih hrenamed hallocs (fun x hx => htaken x fun hmem => hx (.tail _ hmem)) ?_
    intro x hx
    have hallocated : (body.renameBuffer name new).allocated =
        body.allocated.map fun n => if n = name then new else n :=
      (moves_renameBuffer name new).allocated_mapAll body
    rw [hallocated] at hx
    obtain ⟨y, hy, rfl⟩ := List.mem_map.1 hx
    by_cases hyn : y = name
    · rw [if_pos hyn]
      exact .head _
    · rw [if_neg hyn]
      exact .tail _ (hbody y hy)

theorem linear_of_renameCopy (hlin : (renameCopy k allocs taken body).2.Linear) : body.Linear := by
  induction allocs generalizing taken body with
  | nil => exact hlin
  | cons name allocs ih =>
    intro s hs w hw
    have hmoved := (moves_renameBuffer name _).linear (ih hlin) hs hw
    exact Window.linear_of_mapExprs (fun _ _ => rfl) hmoved

theorem mem_taken_renameCopy {x : String} (hx : x ∈ taken) :
    x ∈ (renameCopy k allocs taken body).1 := by
  induction allocs generalizing taken body with
  | nil => exact hx
  | cons name allocs ih => exact ih (.tail _ hx)

theorem honours_copies {var : String} (hbody : HonoursAll find Γ body)
    (hallocs : ∀ x ∈ allocs, Γ x = none) {n : Nat} (htaken : ∀ x ∉ taken, Γ x = none)
    (hallocated : ∀ x ∈ body.allocated, x ∈ taken)
    (hnew : ∀ x ∈ (copies var allocs body n k taken).flatMap (·.declared), Γ x = none)
    (hlin : Linear (copies var allocs body n k taken)) :
    HonoursAll find Γ (copies var allocs body n k taken) := by
  induction n generalizing k taken with
  | zero => trivial
  | succ n ih =>
    let value : Expr := .int (Int64.ofNat k)
    let copy := renameCopy k allocs taken (body.substVar var value)
    have hunfold : copies var allocs body (n + 1) k taken =
      copy.2 ++ copies var allocs body n (k + 1) copy.1 := rfl
    rw [hunfold] at hnew hlin ⊢
    rw [List.flatMap_append, List.forall_mem_append] at hnew
    obtain ⟨hlinCopy, hlinRest⟩ := linear_append.1 hlin
    have hsubst : HonoursAll find Γ (body.substVar var value) :=
      hbody.substVar var value (linear_of_renameCopy hlinCopy)
    have hcopy : HonoursAll find Γ copy.2 := by
      refine honours_renameCopy hsubst hallocs htaken ?_
      rw [substVar, (moves_substVar var value).allocated_mapAll, List.map_id]
      exact hallocated
    have hrest : HonoursAll find Γ (copies var allocs body n (k + 1) copy.1) := by
      refine ih (fun x hx => htaken x fun hmem => hx (mem_taken_renameCopy hmem))
        (fun x hx => mem_taken_renameCopy (hallocated x hx)) hnew.2 hlinRest
    exact hcopy.append hrest hnew.1

theorem problems_unroll {loop : String} (hp : p.problems (some find) = [])
    (hq : p.unroll loop = .ok q) (hlin : q.body.Linear) : q.problems (some find) = [] := by
  unfold unroll at hq
  obtain ⟨⟨path, h, body⟩, hpick, hq⟩ := except_bind_eq_ok.1 hq
  simp only at hq
  split at hq
  · cases hq
  next n _ =>
    refine problems_replaceStmt hp (stmt?_of_pickLoop hpick) hq hlin fun sc rest hplace => ?_
    have hallocated : ∀ x ∈ allocated body, x ∈ binders (.loop h body :: rest) := by
      intro x hx
      rw [binders_cons, List.mem_append]
      exact .inl (.tail _ (mem_binders_of_allocated hx))
    refine hplace.honours_append (honours_copies hplace.honours.1 (fun x hx => ?_) (fun x hx => ?_)
      (fun x hx => ?_) (fun x hx => ?_) (linear_append.1 hplace.linear).1) hplace.honours.2
    · exact hplace.old.kinds_eq_none (hallocated x (mem_sortedNames.1 hx))
    · exact hplace.kinds_eq_none hx
    · exact hplace.binders x (hallocated x hx)
    · exact hplace.new.append_left.kinds_eq_none (mem_binders_of_declared hx)

end Proc

end LoopNest
