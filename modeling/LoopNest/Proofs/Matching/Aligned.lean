import LoopNest.Proofs.AffineValue
import LoopNest.Proofs.Trace.Basic
import LoopNest.Template.Match

/-!
# Code that is aligned with a template

What a successful match says, without the way it was found: statements correspond one to one, loops
run equally often, and every access to a parameter lies in the window that is recorded for it.
`Matching.stmts_aligned` and `Matching.of_window` read it off a match; the proofs about runs use
nothing else of the matcher.
-/

namespace LoopNest

/-! ## Lists -/

theorem pairwise_eq_true {β : Type} {related : β → β → Bool} {l l' : List β} :
    pairwise related l l' = true ↔ List.Forall₂ (fun a b => related a b = true) l l' := by
  fun_induction pairwise related l l' with
  | case1 => simp
  | case2 a as b bs ih => rw [Bool.and_eq_true, List.forall₂_cons, ih]
  | case3 l l' hnil hcons =>
    simp only [Bool.false_eq_true, false_iff]
    rintro (_ | ⟨_, _⟩)
    · exact hnil rfl rfl
    · exact hcons _ _ _ _ rfl rfl

theorem forall₂_through {β γ δ : Type} {R : β → γ → Prop} {S : δ → γ → Prop} {T : β → δ → Prop}
    {l : List β} {l' : List γ} {l'' : List δ} (h : List.Forall₂ R l l') (h' : List.Forall₂ S l'' l')
    (himp : ∀ b c d, R b c → S d c → T b d) : List.Forall₂ T l l'' := by
  induction h generalizing l'' with
  | nil =>
    cases h'
    exact .nil
  | cons hR _ ih =>
    cases h' with
    | cons hS h' => exact .cons (himp _ _ _ hR hS) (ih h')

theorem Affine.same_refl (a : Affine) : a.same a = true := by
  simp [Affine.same]

namespace Matching

/-! ## The relation -/

/-- The code index is the template index plus an offset in which no code loop variable matters. -/
def Follows (ρ : Renaming) (lo : Affine) (t c : Expr) : Prop :=
  ∃ ta ca, Affine.ofExpr? (renamed ρ t) = some ta ∧ Affine.ofExpr? c = some ca ∧
    ca.sub? ta = some lo ∧ ∀ v ∈ ρ.map (·.2), lo.mentions v = false

/-- The access `b[cidx]` in the code lies in the window of `p` where `p[tidx]` is. -/
inductive AccessAligned (sites : String → Option Site) (ρ : Renaming) (p : String)
    (tidx : List Expr) (b : String) (cidx : List Expr) : Prop
  | intro {site : Site} {lead tail : List Expr} :
    sites p = some site → site.buf = b → cidx = lead ++ tail → tidx.length = tail.length →
    List.Forall₂ (fun e e' => e = e' ∨ e.sameIndex e' = true) site.lead lead →
    (∀ e ∈ lead, ∀ v ∈ ρ.map (·.2), e.mentions v = false) →
    List.Forall₂ (fun offset tc => ∃ lo, offset.same lo = true ∧ Follows ρ lo tc.1 tc.2)
      site.offsets (tidx.zip tail) →
    AccessAligned sites ρ p tidx b cidx

/-- Data expressions of the same form. A variable of the template stands for an index expression. -/
inductive DataAligned (sites : String → Option Site) (ρ : Renaming) : Expr → Expr → Prop
  | read {p b : String} {tidx cidx : List Expr} : AccessAligned sites ρ p tidx b cidx →
    DataAligned sites ρ (.read p tidx) (.read b cidx)
  | float {x y : Float} : (x == y) = true → DataAligned sites ρ (.float x) (.float y)
  | int {n : Word} : DataAligned sites ρ (.int n) (.int n)
  | var {v : String} {c : Expr} : (renamed ρ (.var v)).sameIndex c = true →
    DataAligned sites ρ (.var v) c
  | binary {o : Op} {l r l' r' : Expr} : DataAligned sites ρ l l' → DataAligned sites ρ r r' →
    DataAligned sites ρ (.binary o l r) (.binary o l' r')
  | neg {e e' : Expr} : DataAligned sites ρ e e' → DataAligned sites ρ (.neg e) (.neg e')

/-- Conditions of the same form, with the same index expressions. -/
inductive ConditionAligned (ρ : Renaming) : Expr → Expr → Prop
  | node {o : Op} {l r l' r' : Expr} : o.isArithmetic = false → ConditionAligned ρ l l' →
    ConditionAligned ρ r r' → ConditionAligned ρ (.binary o l r) (.binary o l' r')
  | leaf {t c : Expr} : (∀ o l r, t = .binary o l r → o.isArithmetic = true) →
    (renamed ρ t).sameIndex c = true → ConditionAligned ρ t c

mutual

inductive StmtAligned (sites : String → Option Site) : Renaming → Stmt → Stmt → Prop
  | loop {ρ : Renaming} {th ch : Header} {ts cs : List Stmt} {n : Word} :
    th.bound.int? = some n → ch.bound.constant? = some n → ch.var ∉ ρ.map (·.2) →
    BlockAligned sites ((th.var, ch.var) :: ρ) ts cs →
    StmtAligned sites ρ (.loop th ts) (.loop ch cs)
  | guard {ρ : Renaming} {tc cc : Expr} {ts cs : List Stmt} : ConditionAligned ρ tc cc →
    BlockAligned sites ρ ts cs → StmtAligned sites ρ (.guard tc ts) (.guard cc cs)
  | store {ρ : Renaming} {u : Update} {p b : String} {tidx cidx : List Expr} {trhs crhs : Expr} :
    AccessAligned sites ρ p tidx b cidx → DataAligned sites ρ trhs crhs →
    StmtAligned sites ρ (.store u p tidx trhs) (.store u b cidx crhs)

/-- Statement by statement. -/
inductive BlockAligned (sites : String → Option Site) : Renaming → List Stmt → List Stmt → Prop
  | nil {ρ : Renaming} : BlockAligned sites ρ [] []
  | cons {ρ : Renaming} {t c : Stmt} {ts cs : List Stmt} : StmtAligned sites ρ t c →
    BlockAligned sites ρ ts cs → BlockAligned sites ρ (t :: ts) (c :: cs)

end

/-! ## Reading it off a match -/

/-- `m'` knows all that `m` knows. -/
structure Extends (m m' : Matching) : Prop where
  bound : m.bound ⊆ m'.bound
  sites : ∀ p s, m.sites.lookup p = some s → m'.sites.lookup p = some s

/-- On the way from `m` to `m'` nothing is lost, and `Q` holds of all sites that agree with `m'`. -/
structure Yields (m m' : Matching) (Q : (String → Option Site) → Prop) : Prop
    extends Extends m m' where
  aligned : ∀ sites : String → Option Site,
    (∀ p s, m'.sites.lookup p = some s → sites p = some s) → Q sites

namespace Yields

variable {m m' m'' : Matching} {Q Q' Q'' : (String → Option Site) → Prop}

theorem pure (h : ∀ sites, Q sites) : Yields m m Q :=
  ⟨⟨fun _ hv => hv, fun _ _ hs => hs⟩, fun sites _ => h sites⟩

theorem mono (h : Yields m m' Q) (hQ : ∀ sites, Q sites → Q' sites) : Yields m m' Q' :=
  ⟨h.toExtends, fun sites hs => hQ sites (h.aligned sites hs)⟩

/-- One match after another. -/
theorem seq (h : Yields m m' Q) (h' : Yields m' m'' Q')
    (hQ : ∀ sites, Q sites → Q' sites → Q'' sites) : Yields m m'' Q'' where
  bound _ hv := h'.bound (h.bound hv)
  sites p s hs := h'.sites p s (h.sites p s hs)
  aligned sites hs :=
    hQ sites (h.aligned sites fun p s hp => hs p s (h'.sites p s hp)) (h'.aligned sites hs)

end Yields

variable {template : Proc} {ρ : Renaming} {m m' : Matching}

theorem of_addSite {p : String} {site : Site} (h : m.addSite p site = .ok m') :
    Yields m m' fun sites => ∃ old, sites p = some old ∧ (old = site ∨ old.same site = true) := by
  unfold addSite at h
  split at h
  next old hold =>
    split at h
    next hsame =>
      cases h
      exact ⟨⟨fun _ hv => hv, fun _ _ hs => hs⟩, fun sites hs => ⟨old, hs p old hold, .inr hsame⟩⟩
    · cases h
  next hnone =>
    split at h
    · cases h
    · cases h
      refine ⟨⟨fun _ hv => hv, fun q s hs => ?_⟩,
        fun sites hs => ⟨site, hs p site (by simp), .inl rfl⟩⟩
      have hne : (q == p) = false := by
        rw [beq_eq_false_iff_ne]
        rintro rfl
        rw [hnone] at hs
        cases hs
      rw [List.lookup_cons, hne]
      exact hs

theorem of_offset {param buf : String} {t c : Expr} {lo : Affine} (hρ : ρ.map (·.2) ⊆ m.bound)
    (h : m.offset ρ param buf t c = .ok lo) : Follows ρ lo t c := by
  unfold offset at h
  split at h
  · cases h
  · cases h
  next ta ca hta hca =>
    split at h
    · cases h
    next lo' hlo =>
      split at h
      · cases h
      next hvaries =>
        cases h
        refine ⟨ta, ca, hta, hca, hlo, fun v hv => ?_⟩
        simp only [List.any_eq_true, not_exists, not_and, Bool.not_eq_true] at hvaries
        exact hvaries v (hρ hv)

theorem access_aligned {p b : String} {tidx cidx : List Expr} (hρ : ρ.map (·.2) ⊆ m.bound)
    (h : m.access template ρ p tidx b cidx = .ok m') :
    Yields m m' fun sites => AccessAligned sites ρ p tidx b cidx := by
  simp only [access] at h
  split at h
  · obtain ⟨_, ⟨⟩, -⟩ := except_bind_eq_ok.1 h
  · split at h
    · obtain ⟨_, ⟨⟩, -⟩ := except_bind_eq_ok.1 h
    next hlen =>
      split at h
      · cases h
      next hlead =>
        rw [except_bind_eq_ok] at h
        obtain ⟨offsets, hoffsets, h⟩ := h
        refine (of_addSite h).mono fun sites ⟨old, hold, hsame⟩ => ?_
        have hfixed : ∀ e ∈ cidx.take (cidx.length - tidx.length), ∀ v ∈ ρ.map (·.2),
            e.mentions v = false := by
          intro e he v hv
          have hvaries := List.find?_eq_none.1 hlead e he
          simp only [varies, List.any_eq_true, not_exists, not_and, Bool.not_eq_true] at hvaries
          exact hvaries v (hρ hv)
        have hfollows : List.Forall₂ (fun tc lo => Follows ρ lo tc.1 tc.2)
            (tidx.zip (cidx.drop (cidx.length - tidx.length))) offsets :=
          (mapM_eq_ok hoffsets).imp fun _ _ ho => of_offset hρ ho
        have hbuf : old.buf = b ∧
            List.Forall₂ (fun e e' => e = e' ∨ e.sameIndex e' = true) old.lead
              (cidx.take (cidx.length - tidx.length)) ∧
            List.Forall₂ (fun o o' => o.same o' = true) old.offsets offsets := by
          obtain rfl | hsame := hsame
          · exact ⟨rfl, List.forall₂_same.2 fun e _ => .inl rfl,
              List.forall₂_same.2 fun o _ => o.same_refl⟩
          · simp only [Site.same, Bool.and_eq_true, beq_iff_eq, pairwise_eq_true] at hsame
            exact ⟨hsame.1.1, hsame.1.2.imp fun _ _ => .inr, hsame.2⟩
        refine .intro hold hbuf.1 (List.take_append_drop _ _).symm ?_ hbuf.2.1 hfixed ?_
        · rw [List.length_drop]
          omega
        · exact forall₂_through hbuf.2.2 hfollows fun o lo tc ho hlo => ⟨lo, ho, hlo⟩

/-- A comparison or conjunction has no affine form, so only its own form matches it. -/
theorem form_of_sameIndex {o : Op} (ho : ¬ o.isArithmetic = true) {l r c : Expr}
    (h : (renamed ρ (.binary o l r)).sameIndex c = true) : ∃ l' r', c = .binary o l' r' := by
  have hnone : Affine.ofExpr? (renamed ρ (.binary o l r)) = none := by
    cases o <;> first | rfl | exact absurd rfl ho
  rw [Expr.sameIndex, hnone] at h
  have hsame : (renamed ρ (.binary o l r)).same c = true := h
  cases c with
  | binary o' l' r' =>
    simp only [renamed, Expr.rebuild, Expr.same, Bool.and_eq_true, beq_iff_eq] at hsame
    exact ⟨l', r', by rw [hsame.1.1]⟩
  | _ => simp [renamed, Expr.rebuild, Expr.same] at hsame

theorem condition_aligned {t c : Expr} (h : index ρ t c = .ok ()) : ConditionAligned ρ t c := by
  fun_induction index ρ t c with
  | case1 o l r o' l' r' hop ihl ihr =>
    simp only [Bool.and_eq_true, decide_eq_true_eq, Bool.not_eq_true'] at hop
    obtain ⟨rfl, harith⟩ := hop
    rw [except_bind_eq_ok] at h
    obtain ⟨_, hl, hr⟩ := h
    exact .node harith (ihl hl) (ihr hr)
  | case2 o l r o' l' r' hop hsame =>
    refine .leaf (fun o₁ l₁ r₁ heq => ?_) hsame
    cases heq
    by_contra harith
    obtain ⟨_, _, heq⟩ := form_of_sameIndex harith hsame
    cases heq
    simp [harith] at hop
  | case3 => cases h
  | case4 t c hform hsame =>
    refine .leaf (fun o l r heq => ?_) hsame
    subst heq
    by_contra harith
    obtain ⟨l', r', rfl⟩ := form_of_sameIndex harith hsame
    exact hform o l r o l' r' rfl rfl
  | case5 => cases h

theorem data_aligned {t c : Expr} (hρ : ρ.map (·.2) ⊆ m.bound)
    (h : data template ρ m t c = .ok m') : Yields m m' fun sites => DataAligned sites ρ t c := by
  induction t generalizing c m m' with
  | var v =>
    rw [data, except_bind_eq_ok] at h
    obtain ⟨_, hindex, h⟩ := h
    cases h
    cases condition_aligned hindex with
    | leaf _ hsame => exact .pure fun _ => .var hsame
  | int n =>
    cases c with
    | int k =>
      rw [data] at h
      split at h
      next heq =>
        cases h
        obtain rfl := beq_iff_eq.1 heq
        exact .pure fun _ => .int
      · cases h
    | _ => cases h
  | float x =>
    cases c with
    | float y =>
      rw [data] at h
      split at h
      next heq =>
        cases h
        exact .pure fun _ => .float heq
      · cases h
    | _ => cases h
  | read p tidx =>
    cases c with
    | read b cidx => exact (access_aligned hρ h).mono fun _ => .read
    | _ => cases h
  | binary op l r ihl ihr =>
    cases c with
    | binary op' l' r' =>
      simp only [data] at h
      split at h
      next heq =>
        subst heq
        rw [except_bind_eq_ok] at h
        obtain ⟨m₁, hl, hr⟩ := h
        have hleft := ihl hρ hl
        exact hleft.seq (ihr (fun v hv => hleft.bound (hρ hv)) hr) fun _ => .binary
      · cases h
    | _ => cases h
  | neg e ih =>
    cases c with
    | neg e' => exact (ih hρ h).mono fun _ => .neg
    | _ => cases h

/-- One statement, given what is known of the blocks inside. -/
theorem stmt_aligned {t c : Stmt} (hρ : ρ.map (·.2) ⊆ m.bound)
    (ih : ∀ ts, t.body? = some ts → ∀ {ρ : Renaming} {m m' : Matching} {cs : Block},
      ts.length ≤ cs.length → ρ.map (·.2) ⊆ m.bound → stmts template ρ m ts cs = .ok m' →
        Yields m m' fun sites => BlockAligned sites ρ ts (cs.take ts.length))
    (h : stmt template ρ m t c = .ok m') : Yields m m' fun sites => StmtAligned sites ρ t c := by
  cases t with
  | loop th tbody =>
    cases c with
    | loop ch cbody =>
      rw [stmt] at h
      split at h
      · cases h
      next n hn =>
        split at h
        · cases h
        next hcount =>
          split at h
          · cases h
          next hnew =>
            split at h
            · cases h
            next hbody =>
              have hlen : tbody.length = cbody.length := not_not.1 hbody
              -- a variable that is bound already is refused, so this one renames to a new one
              have hρ' : ((th.var, ch.var) :: ρ).map (·.2) ⊆ ch.var :: m.bound :=
                List.cons_subset_cons _ hρ
              have hinner := ih tbody rfl hlen.le hρ' h
              rw [hlen, List.take_length] at hinner
              refine ⟨⟨fun v hv => hinner.bound (.tail _ hv), hinner.sites⟩,
                fun sites hs => .loop hn (not_not.1 hcount) (fun hv => hnew ?_)
                  (hinner.aligned sites hs)⟩
              exact List.contains_iff_mem.2 (hρ hv)
    | _ => cases h
  | guard tc tbody =>
    cases c with
    | guard cc cbody =>
      rw [stmt, except_bind_eq_ok] at h
      obtain ⟨_, hcond, h⟩ := h
      split at h
      · cases h
      next hbody =>
        have hlen : tbody.length = cbody.length := not_not.1 hbody
        have hinner := ih tbody rfl hlen.le hρ h
        rw [hlen, List.take_length] at hinner
        exact hinner.mono fun _ => .guard (condition_aligned hcond)
    | _ => cases h
  | store u p tidx trhs =>
    cases c with
    | store u' b cidx crhs =>
      rw [stmt] at h
      split at h
      next heq =>
        subst heq
        rw [except_bind_eq_ok] at h
        obtain ⟨m₁, htarget, hrhs⟩ := h
        have htarget := access_aligned hρ htarget
        exact htarget.seq (data_aligned (fun v hv => htarget.bound (hρ hv)) hrhs) fun _ => .store
      · cases h
    | _ => cases h
  | alloc d | call f args => cases c <;> cases h

/-- **What a match says of statements.** -/
theorem stmts_aligned {ts cs : Block} (hlen : ts.length ≤ cs.length) (hρ : ρ.map (·.2) ⊆ m.bound)
    (h : stmts template ρ m ts cs = .ok m') :
    Yields m m' fun sites => BlockAligned sites ρ ts (cs.take ts.length) := by
  induction ts using Block.induction generalizing cs ρ m m' with
  | nil =>
    rw [stmts] at h
    · cases h
      exact .pure fun _ => .nil
    · simp
  | cons t ts ihs ihrest =>
    cases cs with
    | nil => simp at hlen
    | cons c cs =>
      rw [stmts, except_bind_eq_ok] at h
      obtain ⟨m₁, ht, hts⟩ := h
      have hhead := stmt_aligned hρ (fun body hbody _ _ _ _ => ihs body hbody) ht
      have hrest := ihrest (by simpa using hlen) (fun v hv => hhead.bound (hρ hv)) hts
      exact hhead.seq hrest fun _ => .cons

/-! ## Windows -/

/-- From each offset on there is an interval of the declared extent. -/
abbrev Intervals (offsets : List Affine) (shape : List Expr) : List WindowDim → Prop :=
  List.Forall₂ (fun (lo, extent) d => ∃ n hi, extent.int? = some n ∧
    lo.addConstant? n = some hi ∧ d = .interval lo.toExpr hi.toExpr) (offsets.zip shape)

/-- The window of a parameter has the leading indices of its site as points, and intervals after
them. -/
theorem of_window {p : Proc} {path : Path} {formal : Decl} {w : Window}
    (h : m.window p path formal = .ok w) :
    ∃ site intervals, m.sites.lookup formal.name = some site ∧
      w = ⟨site.buf, site.lead.map .point ++ intervals⟩ ∧
      Intervals site.offsets formal.shape intervals := by
  simp only [window] at h
  split at h
  · cases h
  next site hsite =>
    split at h
    · cases h
    next d hd =>
      split at h
      · obtain ⟨_, ⟨⟩, -⟩ := except_bind_eq_ok.1 h
      · split at h
        · obtain ⟨_, ⟨⟩, -⟩ := except_bind_eq_ok.1 h
        · rw [except_bind_eq_ok] at h
          obtain ⟨intervals, hintervals, h⟩ := h
          cases h
          refine ⟨site, intervals, hsite, rfl, (mapM_eq_ok hintervals).imp ?_⟩
          rintro ⟨lo, extent⟩ dim hdim
          simp only at hdim
          split at hdim
          · cases hdim
          next n hn =>
            split at hdim
            · cases hdim
            next hi hhi =>
              cases hdim
              exact ⟨n, hi, hn, hhi, rfl⟩

end Matching

end LoopNest
