import LoopNest.Proofs.Context
import LoopNest.Proofs.Contract.Extent
import LoopNest.Proofs.Fresh
import LoopNest.Proofs.Templates

/-!
# What templates ask of their callers

A call honours its template when the template is known and takes as many windows as are passed, each
of a buffer with the element type and the memory of the parameter, and with the parameter's constant
extents. A kernel is well formed with a catalog if it is well formed without one and all of its calls
honour their templates (`Proc.problems_some`).

For a call it matters which kind of buffer a name stands for, and nothing else of the scope: the rest
of this module says how the kinds of the buffers and the windows may change.
-/

namespace LoopNest

open Stmt Block

variable {x name : String} {w : Window} {args : List Window}

/-! ## Kinds of buffers -/

/-- What a template asks of a buffer: the element type and the memory. -/
def Decl.kind (d : Decl) : Scalar × Space := (d.ty, d.mem)

/-- The kinds of the buffers that are in scope. -/
abbrev Kinds := String → Option (Scalar × Space)

namespace Kinds

def declare (Γ : Kinds) (d : Decl) : Kinds := fun x => if x = d.name then some d.kind else Γ x

/-- The kinds for the statements after `s`. -/
def after (Γ : Kinds) (s : Stmt) : Kinds :=
  match s with
  | .alloc d => Γ.declare d
  | _ => Γ

/-- The kinds for the statements after a block. -/
def afterAll (Γ : Kinds) (b : Block) : Kinds := b.foldl after Γ

theorem declare_self (Γ : Kinds) (d : Decl) : Γ.declare d d.name = some d.kind := if_pos rfl

theorem declare_of_ne (Γ : Kinds) (d : Decl) (h : x ≠ d.name) : Γ.declare d x = Γ x := if_neg h

theorem after_of_decl? (Γ : Kinds) {s : Stmt} (h : s.decl? = none) : Γ.after s = Γ := by
  cases s with
  | alloc d => cases h
  | _ => rfl

/-- A block changes the kinds of the names it declares, and of no others. -/
theorem afterAll_of_not_mem (Γ : Kinds) {b : Block} (hx : x ∉ b.flatMap (·.declared)) :
    Γ.afterAll b x = Γ x := by
  induction b generalizing Γ with
  | nil => rfl
  | cons s rest ih =>
    rw [List.flatMap_cons, List.mem_append, not_or] at hx
    have hrest : (Γ.after s).afterAll rest x = Γ.after s x := ih _ hx.2
    refine Eq.trans hrest ?_
    cases s with
    | alloc d =>
      refine Γ.declare_of_ne d ?_
      simpa [Stmt.declared, decl?] using hx.1
    | _ => rfl

end Kinds

/-- The kinds of the buffers in a scope. -/
def Scope.kinds (sc : Scope) : Kinds := fun x => (sc.buffer? x).map (·.kind)

theorem Scope.kinds_after (sc : Scope) (s : Stmt) : (sc.after s).kinds = sc.kinds.after s := by
  cases s with
  | alloc d =>
    funext x
    show ((sc.addBuffer d).buffer? x).map (·.kind) = sc.kinds.declare d x
    rw [Scope.buffer?_addBuffer]
    by_cases hx : d.name = x
    · rw [if_pos hx, ← hx, Kinds.declare_self]
      rfl
    · rw [if_neg hx, Kinds.declare_of_ne _ _ (Ne.symm hx)]
      rfl
  | _ => rfl

/-! ## Calls that honour their templates -/

/-- The extents of the intervals are constant, and are those of the declared shape. -/
def ExtentsFit : List (Expr × Expr) → List Expr → Prop :=
  List.Forall₂ fun i e => ∃ n, Scope.extent? i.1 i.2 = some n ∧ e.int? = some n

/-- The window may be passed for the parameter. -/
structure Window.Suits (Γ : Kinds) (w : Window) (f : Decl) : Prop where
  kind : Γ w.buf = some f.kind
  extents : ExtentsFit w.intervals f.shape

/-- The windows may be passed to the template. -/
def Proc.Takes (t : Proc) (Γ : Kinds) (args : List Window) : Prop :=
  List.Forall₂ (fun w q => ∃ f, q = .buffer f ∧ w.Suits Γ f) args t.params

mutual

/-- All calls in the statement honour their templates. -/
def Stmt.Honours (find : String → Option Proc) (Γ : Kinds) : Stmt → Prop
  | .loop _ body => Stmt.HonoursAll find Γ body
  | .guard _ body => Stmt.HonoursAll find Γ body
  | .store .. | .alloc _ => True
  | .call name args => ∃ t, find name = some t ∧ t.Takes Γ args

/-- The same for statements in order. -/
def Stmt.HonoursAll (find : String → Option Proc) (Γ : Kinds) : List Stmt → Prop
  | [] => True
  | s :: rest => s.Honours find Γ ∧ Stmt.HonoursAll find (Γ.after s) rest

end

theorem Window.length_intervals (w : Window) : w.intervals.length = w.rank := by
  obtain ⟨buf, dims⟩ := w
  show (dims.filterMap _).length = (dims.filter _).length
  induction dims with
  | nil => rfl
  | cons d dims ih =>
    cases d with
    | point e | interval lo hi => simpa [List.filterMap_cons, WindowDim.isInterval] using ih

namespace Scope

variable {sc : Scope} {find : String → Option Proc}

theorem checkExtent_eq_nil {formal : String} {lo hi e : Expr} :
    checkExtent formal lo hi e = [] ↔ ∃ n, extent? lo hi = some n ∧ e.int? = some n := by
  unfold checkExtent
  split
  next given expected hgiven hexpected =>
    by_cases heq : given = expected
    · simp [heq, hgiven, hexpected]
    · rw [if_neg heq, hgiven, hexpected]
      constructor
      · intro h
        cases h
      · rintro ⟨n, hn, hn'⟩
        cases hn
        cases hn'
        exact absurd rfl heq
  next hnone =>
    constructor
    · intro h
      cases h
    · rintro ⟨n, hn, hn'⟩
      exact absurd hn' (hnone n n hn)

theorem checkArgument_eq_nil {q : Param} {d : Decl} (hd : sc.buffer? w.buf = some d) :
    sc.checkArgument name w q = [] ↔ ∃ f, q = .buffer f ∧ w.Suits sc.kinds f := by
  cases q with
  | size n =>
    constructor
    · intro h
      cases h
    · rintro ⟨f, hf, -⟩
      cases hf
  | buffer f =>
    have hkind : sc.kinds w.buf = some d.kind := by rw [kinds, hd]; rfl
    have hzip : ((w.intervals.zip f.shape).flatMap fun ie =>
        checkExtent f.name ie.1.1 ie.1.2 ie.2) = [] ↔ ∀ ie ∈ w.intervals.zip f.shape,
          ∃ n, extent? ie.1.1 ie.1.2 = some n ∧ ie.2.int? = some n := by
      rw [List.flatMap_eq_nil_iff]
      exact forall₂_congr fun ie _ => checkExtent_eq_nil
    constructor
    · intro h
      simp only [checkArgument, hd, List.append_eq_nil_iff] at h
      obtain ⟨⟨hty, hmem⟩, h⟩ := h
      have hty : d.ty = f.ty := by
        by_contra hne
        simp [hne] at hty
      have hmem : d.mem = f.mem := by
        by_contra hne
        simp [hne] at hmem
      split at h
      · cases h
      next hrank =>
        refine ⟨f, rfl, by rw [hkind, Decl.kind, hty, hmem]; rfl, ?_⟩
        refine List.forall₂_iff_zip.2 ⟨?_, fun {i e} hie => hzip.1 h (i, e) hie⟩
        rw [w.length_intervals, not_ne_iff.1 hrank]
        rfl
    · rintro ⟨f', hf, hsuits⟩
      cases hf
      have heq : d.kind = f.kind := Option.mem_unique hkind hsuits.kind
      obtain ⟨hty, hmem⟩ := Prod.mk.inj heq
      have hrank : w.rank = f.rank := by
        rw [← w.length_intervals]
        exact hsuits.extents.length_eq
      simp only [checkArgument, hd, hty, hmem, hrank, if_true, List.nil_append, ne_eq,
        not_true_eq_false, if_false]
      exact hzip.2 fun ie hie => List.forall₂_zip hsuits.extents hie

/-- A call passes its check if it does so without a catalog and honours its template. -/
theorem checkCall_some :
    sc.checkCall (some find) name args = [] ↔
      sc.checkCall none name args = [] ∧ ∃ t, find name = some t ∧ t.Takes sc.kinds args := by
  have hnone : sc.checkCall none name args = [] ↔ ∀ w ∈ args, sc.checkWindow w = [] := by
    rw [checkCall, List.append_nil, List.flatMap_eq_nil_iff]
  rw [hnone]
  constructor
  · intro h
    obtain ⟨hwindows, t, ht, hlen, hargs⟩ := of_checkCall h
    refine ⟨hwindows, t, ht, List.forall₂_iff_zip.2 ⟨hlen.symm, fun {w q} hwq => ?_⟩⟩
    obtain ⟨d, hd, -⟩ := (checkWindow_eq_nil.1 (hwindows w (List.of_mem_zip hwq).1)).1
    exact (checkArgument_eq_nil hd).1 (hargs (w, q) hwq)
  · rintro ⟨hwindows, t, ht, htakes⟩
    rw [checkCall, List.append_eq_nil_iff, List.flatMap_eq_nil_iff]
    refine ⟨hwindows, ?_⟩
    simp only [ht, htakes.length_eq, ne_eq, not_true_eq_false, if_false, List.flatMap_eq_nil_iff]
    intro wq hwq
    obtain ⟨d, hd, -⟩ := (checkWindow_eq_nil.1 (hwindows wq.1 (List.of_mem_zip hwq).1)).1
    exact (checkArgument_eq_nil hd).2 (List.forall₂_zip htakes hwq)

end Scope

variable {b rest : Block} {s : Stmt} {Γ Γ' : Kinds}

theorem Stmt.wellScopedAll_some {find : String → Option Proc} {sc : Scope} :
    WellScopedAll (some find) sc b ↔ WellScopedAll none sc b ∧ HonoursAll find sc.kinds b := by
  induction b using Block.induction generalizing sc with
  | nil => exact ⟨fun _ => ⟨trivial, trivial⟩, fun _ => trivial⟩
  | cons s rest ihs ihrest =>
    have hs : s.WellScoped (some find) sc ↔ s.WellScoped none sc ∧ s.Honours find sc.kinds := by
      cases s with
      | loop h body | guard e body =>
        rw [WellScoped, WellScoped, ihs body rfl, Honours]
        exact and_assoc.symm
      | store u b idx rhs | alloc d => exact (and_iff_left trivial).symm
      | call t args => exact Scope.checkCall_some
    rw [WellScopedAll, WellScopedAll, HonoursAll, hs, ihrest, Scope.kinds_after]
    tauto

/-- **Well formed with a catalog** is well formed without one, with calls that honour their
templates. -/
theorem Proc.problems_some {find : String → Option Proc} {p : Proc} :
    p.problems (some find) = [] ↔
      p.problems none = [] ∧ Stmt.HonoursAll find p.scope.kinds p.body := by
  rw [Proc.problems_eq_nil, Proc.problems_eq_nil, wellScopedAll_some, and_assoc]

/-! ## Moving calls to other scopes -/

theorem Block.allocated_cons (s : Stmt) (rest : Block) :
    allocated (s :: rest) = s.declared ++ ((s.body?.map allocated).getD [] ++ allocated rest) := by
  simp only [allocated, nested_cons, List.filterMap_cons, List.filterMap_append, Stmt.declared]
  cases s <;> simp [decl?, body?, allocated]

theorem Block.forall_allocated_cons {P : String → Prop} :
    (∀ x ∈ allocated (s :: rest), P x) ↔ (∀ x ∈ s.declared, P x) ∧
      (∀ body, s.body? = some body → ∀ x ∈ allocated body, P x) ∧
      ∀ x ∈ allocated rest, P x := by
  rw [allocated_cons, List.forall_mem_append, List.forall_mem_append]
  refine and_congr Iff.rfl (and_congr ?_ Iff.rfl)
  cases s.body? <;> simp

theorem Block.mem_binders_of_declared (hx : x ∈ b.flatMap (·.declared)) : x ∈ b.binders := by
  induction b with
  | nil => cases hx
  | cons s rest ih =>
    rw [List.flatMap_cons, List.mem_append] at hx
    obtain hx | hx := hx
    · refine mem_binders_of_allocated ?_
      rw [allocated_cons]
      exact List.mem_append_left _ hx
    · rw [binders_cons]
      exact List.mem_append_right _ (ih hx)

theorem Block.touches_cons :
    Block.touches x (s :: rest) = true ↔ s.touchesHere x = true ∨
      (∃ body, s.body? = some body ∧ Block.touches x body = true) ∨ Block.touches x rest = true := by
  simp only [Block.touches, List.any_eq_true, mem_nested_cons]
  constructor
  · rintro ⟨t, rfl | ⟨body, hbody, ht⟩ | ht, hx⟩
    · exact .inl hx
    · exact .inr (.inl ⟨body, hbody, t, ht, hx⟩)
    · exact .inr (.inr ⟨t, ht, hx⟩)
  · rintro (hx | ⟨body, hbody, t, ht, hx⟩ | ⟨t, ht, hx⟩)
    · exact ⟨s, .inl rfl, hx⟩
    · exact ⟨t, .inr (.inl ⟨body, hbody, ht⟩), hx⟩
    · exact ⟨t, .inr (.inr ht), hx⟩

/-- The bounds of all intervals of the window have a difference as a form: nothing overflows. -/
def Window.Linear (w : Window) : Prop :=
  ∀ i ∈ w.intervals, (Scope.extentForm? i.1 i.2).isSome = true

/-- All windows that the block passes are linear. -/
def Block.Linear (b : Block) : Prop := ∀ s ∈ b.nested, ∀ w ∈ s.windows, w.Linear

instance (w : Window) : Decidable w.Linear := inferInstanceAs (Decidable (∀ i ∈ w.intervals, _))

instance (b : Block) : Decidable b.Linear :=
  inferInstanceAs (Decidable (∀ s ∈ b.nested, ∀ w ∈ s.windows, w.Linear))

theorem Block.linear_cons :
    Linear (s :: rest) ↔ (∀ w ∈ s.windows, w.Linear) ∧
      (∀ body, s.body? = some body → Linear body) ∧ Linear rest :=
  forall_nested_cons

theorem Block.linear_append {b' : Block} : Linear (b ++ b') ↔ Linear b ∧ Linear b' := by
  simp only [Linear, Block.nested, nestedAll_append, List.forall_mem_append]

theorem Window.Suits.mono {f : Decl} (h : w.Suits Γ f)
    (hle : ∀ k, Γ w.buf = some k → Γ' w.buf = some k) : w.Suits Γ' f :=
  ⟨hle _ h.kind, h.extents⟩

/-- Windows can be changed as long as the kinds of their buffers and their extents stay. -/
theorem Proc.Takes.map {t : Proc} {φ : Window → Window} (h : t.Takes Γ args)
    (hbuf : ∀ w ∈ args, ∀ k, Γ w.buf = some k → Γ' (φ w).buf = some k)
    (hext : ∀ w ∈ args, ∀ shape, ExtentsFit w.intervals shape → ExtentsFit (φ w).intervals shape) :
    t.Takes Γ' (args.map φ) := by
  refine List.forall₂_map_left_iff.2 (List.forall₂_iff_zip.2 ⟨h.length_eq, fun {w q} hwq => ?_⟩)
  obtain ⟨f, rfl, hsuits⟩ := List.forall₂_zip h hwq
  have hw : w ∈ args := (List.of_mem_zip hwq).1
  exact ⟨f, rfl, hbuf w hw _ hsuits.kind, hext w hw _ hsuits.extents⟩

theorem Proc.Takes.mono {t : Proc} (h : t.Takes Γ args)
    (hle : ∀ w ∈ args, ∀ k, Γ w.buf = some k → Γ' w.buf = some k) : t.Takes Γ' args := by
  have hmap := h.map (φ := id) hle fun _ _ _ => id
  rwa [List.map_id] at hmap

namespace Stmt

variable {find : String → Option Proc} {Γ Γ' : Kinds} {b b' : Block}

theorem honoursAll_append :
    HonoursAll find Γ (b ++ b') ↔ HonoursAll find Γ b ∧ HonoursAll find (Γ.afterAll b) b' := by
  induction b generalizing Γ with
  | nil => exact (and_iff_right trivial).symm
  | cons s rest ih =>
    rw [List.cons_append, HonoursAll, HonoursAll, ih, and_assoc]
    exact Iff.rfl

/-- Calls keep honouring their templates where the buffers they pass are of the same kinds. -/
theorem HonoursAll.mono (h : HonoursAll find Γ b)
    (hle : ∀ x k, Block.touches x b = true → Γ x = some k → Γ' x = some k) :
    HonoursAll find Γ' b := by
  induction b using Block.induction generalizing Γ Γ' with
  | nil => trivial
  | cons s rest ihs ihrest =>
    obtain ⟨hs, hrest⟩ := h
    have hbody : ∀ body, s.body? = some body → HonoursAll find Γ body → HonoursAll find Γ' body :=
      fun body hbody h => ihs body hbody h fun x k hx =>
        hle x k (touches_cons.2 (.inr (.inl ⟨body, hbody, hx⟩)))
    have hlater : ∀ x k, Block.touches x rest = true → Γ x = some k → Γ' x = some k :=
      fun x k hx => hle x k (touches_cons.2 (.inr (.inr hx)))
    refine ⟨?_, ihrest hrest fun x k hx hk => ?_⟩
    · cases s with
      | loop hd body | guard e body => exact hbody body rfl hs
      | store u buf idx rhs | alloc d => trivial
      | call name args =>
        obtain ⟨t, ht, htakes⟩ := hs
        refine ⟨t, ht, htakes.mono fun w hw k => hle w.buf k (touches_cons.2 (.inl ?_))⟩
        have hpass : args.any (·.buf == w.buf) = true :=
          List.any_eq_true.2 ⟨w, hw, beq_self_eq_true _⟩
        simp only [touchesHere, hpass, Bool.true_or]
    · cases s with
      | alloc d =>
        by_cases hxd : x = d.name
        · rw [hxd] at hk ⊢
          rw [← hk]
          exact (Γ'.declare_self d).trans (Γ.declare_self d).symm
        · refine (Γ'.declare_of_ne d hxd).trans (hlater x k hx ?_)
          exact (Γ.declare_of_ne d hxd).symm.trans hk
      | _ => exact hlater x k hx hk

/-- Where a block declares no buffer that is in scope, the calls after it see what they saw. -/
theorem HonoursAll.append (h : HonoursAll find Γ b) (h' : HonoursAll find Γ b')
    (hnew : ∀ x ∈ b.flatMap (·.declared), Γ x = none) : HonoursAll find Γ (b ++ b') := by
  refine honoursAll_append.2 ⟨h, h'.mono fun x k _ hk => ?_⟩
  rw [Γ.afterAll_of_not_mem, hk]
  intro hx
  rw [hnew x hx] at hk
  cases hk

/-- Well-scoped statements bind no name of a buffer in scope. -/
theorem WellScopedAll.kinds_eq_none {templates : Scope.Templates} {sc : Scope}
    (h : WellScopedAll templates sc b) (hx : x ∈ b.binders) : sc.kinds x = none := by
  rw [Scope.kinds, Scope.buffer?_eq_none (h.isVisible_eq_false hx)]
  rfl

/-! ## Changing windows and names -/

/-- A change of single statements that renames buffers by `ρ` and changes windows by `φ`. -/
structure Moves (f : Stmt → Stmt) (ρ : String → String) (φ : Window → Window) : Prop where
  loop : ∀ h body, ∃ h', f (.loop h body) = .loop h' body
  guard : ∀ c body, ∃ c', f (.guard c body) = .guard c' body
  store : ∀ u b idx rhs, ∃ b' idx' rhs', f (.store u b idx rhs) = .store u b' idx' rhs'
  alloc : ∀ d, ∃ d', f (.alloc d) = .alloc d' ∧ d'.name = ρ d.name ∧ d'.kind = d.kind
  call : ∀ t args, f (.call t args) = .call t (args.map φ)
  buf : ∀ w, (φ w).buf = ρ w.buf

theorem moves_reword (f : Expr → Expr) (r : String → String) :
    Moves (fun s => (s.mapBuffers r).mapExprs f) r
      (fun w => Window.mapExprs f { w with buf := r w.buf }) where
  loop _ _ := ⟨_, rfl⟩
  guard _ _ := ⟨_, rfl⟩
  store _ _ _ _ := ⟨_, _, _, rfl⟩
  alloc _ := ⟨_, rfl, rfl, rfl⟩
  call t _ := congrArg (Stmt.call t) (List.map_map ..)
  buf _ := rfl

variable {f : Stmt → Stmt} {ρ : String → String} {φ : Window → Window}

/-- A changed statement has the old one's body, declaration and windows, changed. -/
theorem Moves.map (hf : Moves f ρ φ) (s : Stmt) :
    (s.map f).body? = s.body?.map (mapAll f) ∧ (s.map f).declared = s.declared.map ρ ∧
      (s.map f).windows = s.windows.map φ := by
  cases s with
  | loop h body =>
    obtain ⟨h', heq⟩ := hf.loop h (mapAll f body)
    rw [Stmt.map, heq]
    exact ⟨rfl, rfl, rfl⟩
  | guard c body =>
    obtain ⟨c', heq⟩ := hf.guard c (mapAll f body)
    rw [Stmt.map, heq]
    exact ⟨rfl, rfl, rfl⟩
  | store u buf idx rhs =>
    obtain ⟨buf', idx', rhs', heq⟩ := hf.store u buf idx rhs
    rw [Stmt.map, heq]
    exact ⟨rfl, rfl, rfl⟩
  | alloc d =>
    obtain ⟨d', heq, hname, -⟩ := hf.alloc d
    rw [Stmt.map, heq]
    exact ⟨rfl, congrArg (fun x => [x]) hname, rfl⟩
  | call t args =>
    rw [Stmt.map, hf.call]
    exact ⟨rfl, rfl, rfl⟩

theorem Moves.allocated_mapAll (hf : Moves f ρ φ) (b : Block) :
    allocated (mapAll f b) = (allocated b).map ρ := by
  induction b using Block.induction with
  | nil => rfl
  | cons s rest ihs ihrest =>
    obtain ⟨hbody, hdecl, -⟩ := hf.map s
    rw [Stmt.mapAll, allocated_cons, allocated_cons, hbody, hdecl, ihrest]
    cases hs : s.body? with
    | none => simp
    | some body => simp [ihs body hs]

theorem Moves.linear (hf : Moves f ρ φ) {b : Block} (hlin : Linear (mapAll f b)) {s : Stmt}
    (hs : s ∈ b.nested) (hw : w ∈ s.windows) : (φ w).Linear := by
  induction b using Block.induction with
  | nil => cases hs
  | cons t rest iht ihrest =>
    obtain ⟨hbody, -, hwindows⟩ := hf.map t
    rw [Stmt.mapAll, linear_cons, hbody, hwindows] at hlin
    obtain ⟨hhere, hinside, hlater⟩ := hlin
    obtain rfl | ⟨body, hb, hs⟩ | hs := mem_nested_cons.1 hs
    · exact hhere _ (List.mem_map_of_mem hw)
    · exact iht body hb (hinside _ (by rw [hb]; rfl)) hs
    · exact ihrest hlater hs

/-- **Calls survive renaming** that keeps apart the names in use. -/
theorem HonoursAll.mapAll {S : Set String} (hf : Moves f ρ φ) (hinj : S.InjOn ρ)
    (h : HonoursAll find Γ b) (hΓ : ∀ x k, Γ x = some k → x ∈ S ∧ Γ' (ρ x) = some k)
    (hb : ∀ x ∈ b.allocated, x ∈ S)
    (hext : ∀ s ∈ b.nested, ∀ w ∈ s.windows, ∀ shape,
      ExtentsFit w.intervals shape → ExtentsFit (φ w).intervals shape) :
    HonoursAll find Γ' (mapAll f b) := by
  induction b using Block.induction generalizing Γ Γ' with
  | nil => trivial
  | cons s rest ihs ihrest =>
    obtain ⟨hs, hrest⟩ := h
    obtain ⟨hbHere, hbBody, hbRest⟩ := forall_allocated_cons.1 hb
    obtain ⟨hextHere, hextBody, hextRest⟩ := forall_nested_cons.1 hext
    have hbody : ∀ body, s.body? = some body → HonoursAll find Γ body →
        HonoursAll find Γ' (Stmt.mapAll f body) := fun body hbody h =>
      ihs body hbody h hΓ (hbBody body hbody) (hextBody body hbody)
    rw [Stmt.mapAll]
    cases s with
    | loop hd body =>
      obtain ⟨hd', heq⟩ := hf.loop hd (Stmt.mapAll f body)
      rw [map, heq]
      exact ⟨hbody body rfl hs, ihrest hrest hΓ hbRest hextRest⟩
    | guard c body =>
      obtain ⟨c', heq⟩ := hf.guard c (Stmt.mapAll f body)
      rw [map, heq]
      exact ⟨hbody body rfl hs, ihrest hrest hΓ hbRest hextRest⟩
    | store u buf idx rhs =>
      obtain ⟨buf', idx', rhs', heq⟩ := hf.store u buf idx rhs
      rw [map, heq]
      exact ⟨trivial, ihrest hrest hΓ hbRest hextRest⟩
    | alloc d =>
      obtain ⟨d', heq, hname, hkind⟩ := hf.alloc d
      have hd : d.name ∈ S := hbHere _ (.head _)
      rw [map, heq]
      refine ⟨trivial, ihrest hrest (fun x k hk => ?_) hbRest hextRest⟩
      -- no other name in use is moved to that of the declared buffer
      by_cases hxd : x = d.name
      · rw [hxd] at hk ⊢
        refine ⟨hd, ?_⟩
        rw [← hname, ← hk]
        exact (Γ'.declare_self d').trans ((congrArg some hkind).trans (Γ.declare_self d).symm)
      · obtain ⟨hx, hk'⟩ := hΓ x k ((Γ.declare_of_ne d hxd).symm.trans hk)
        refine ⟨hx, (Γ'.declare_of_ne d' ?_).trans hk'⟩
        rw [hname]
        exact fun heq => hxd (hinj hx hd heq)
    | call name args =>
      obtain ⟨t, ht, htakes⟩ := hs
      rw [map, hf.call]
      refine ⟨⟨t, ht, htakes.map (fun w _ k hk => ?_) hextHere⟩, ihrest hrest hΓ hbRest hextRest⟩
      rw [hf.buf]
      exact (hΓ _ _ hk).2

end Stmt

end LoopNest
