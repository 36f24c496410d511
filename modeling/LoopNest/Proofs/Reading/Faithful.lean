import LoopNest.Kernel.Same
import LoopNest.Proofs.Double
import LoopNest.Proofs.Reading.Spelled

/-!
# Literals that survive their text

A literal or a negation is faithful when its text is read as itself. An expression that is read as
something the same as itself has faithful parts only (`Expr.isFaithful_of_same`), and one with
faithful parts is read as itself, once its bare names are resolved (`Expr.resolve_asRead`). Two
kernels that are the same have the same expressions in the same places (`Proc.exprs_of_same`).
-/

namespace LoopNest

open Text

/-- A finite number equals itself. -/
theorem Double.beq_self {x : Float} (h : x.isFinite = true) : (x == x) = true := by
  rw [Double.beq_iff]
  have hfinite : (Double.parts x).isFinite = true := h
  cases hx : Double.parts x with
  | finite s m e hm => exact Double.beq_finite_iff.2 ⟨rfl, rfl, rfl⟩
  | zero s => rfl
  | infinity s | notANumber => simp [hx, Float.Model.UnpackedFloat.isFinite] at hfinite

/-! ## Expressions -/

namespace Expr

/-- Is this very expression read as itself? Not the least word, whose magnitude is no word; not an
infinity or no number, which is a name; not a sign before an unsigned literal, which is taken into
it. -/
def isFaithful : Expr → Bool
  | int n => n ≠ Int64.minValue
  | float x => x.isFinite
  | neg (int n) => n < 0
  | neg (float x) => Decimal.isNegative x
  | _ => true

theorem collect_eq_parts {α : Type} (f : Expr → List α) (e : Expr) :
    e.collect f = e.parts.flatMap f := collect_eq_flatMap f e

variable {e : Expr}

theorem mem_vars {v : String} : v ∈ e.vars ↔ var v ∈ e.parts := by
  rw [vars, collect_eq_parts, List.mem_flatMap]
  constructor
  · rintro ⟨a, ha, hv⟩
    cases a <;> simp_all
  · exact fun h => ⟨var v, h, by simp⟩

theorem mem_buffers {b : String} : b ∈ e.buffers ↔ ∃ idx, read b idx ∈ e.parts := by
  rw [buffers, collect_eq_parts, List.mem_flatMap]
  constructor
  · rintro ⟨a, ha, hb⟩
    cases a <;> simp_all
    exact ⟨_, ha⟩
  · rintro ⟨idx, h⟩
    exact ⟨read b idx, h, by simp⟩

/-- What it takes to spell an expression. -/
theorem spelled_iff : e.Spelled ↔ (∀ v ∈ e.vars, isIdent v = true) ∧
    (∀ b ∈ e.buffers, isIdent b = true) ∧ int Int64.minValue ∉ e.parts := by
  constructor
  · intro h
    refine ⟨fun v hv => h _ (mem_vars.1 hv), fun b hb => ?_, fun hn => ?_⟩
    · obtain ⟨idx, hidx⟩ := mem_buffers.1 hb
      exact h _ hidx
    · simpa [isSpelled] using h _ hn
  · rintro ⟨hvars, hbuffers, hints⟩ a ha
    cases a with
    | var v => exact hvars v (mem_vars.2 ha)
    | read b idx => exact hbuffers b (mem_buffers.2 ⟨idx, ha⟩)
    | int n =>
      refine decide_eq_true fun hn => hints ?_
      rwa [← hn]
    | _ => rfl

theorem isUnsigned_of_isFaithful (h : (neg e).isFaithful = true) : e.isUnsigned = false := by
  cases e with
  | int n =>
    have hn : n < 0 := of_decide_eq_true h
    exact decide_eq_false (Int64.not_le.2 hn)
  | float x =>
    have hx : Decimal.isNegative x = true := h
    simp [isUnsigned, hx]
  | _ => rfl

theorem resolve_nil (e : Expr) : e.resolve [] = e :=
  rebuild_eq_self fun _ _ => rfl

theorem resolve_read (names : List String) (b : String) (idx : List Expr) :
    (read b idx).resolve names = read b (idx.map (·.resolve names)) := by
  rw [resolve, rebuild, rebuildAll_eq_map]

/-- What it takes for this very expression to be read as itself, where `names` are the buffers. -/
def Restored (names : List String) : Expr → Prop
  | var v => v ∉ names
  | read b _ => b ∈ names
  | float x => x.isFinite = true ∧ Decimal.reread x = x
  | neg e => (neg e).isFaithful = true
  | _ => True

theorem resolve_asRead_of_parts {names : List String} (h : ∀ a ∈ e.parts, a.Restored names) :
    e.asRead.resolve names = e := by
  induction e with
  | var v =>
    have hv : v ∉ names := h _ (.head _)
    show (if names.contains v then read v [] else var v) = var v
    rw [if_neg (by simpa using hv)]
  | int n => rfl
  | float x =>
    obtain ⟨hx, hread⟩ : x.isFinite = true ∧ Decimal.reread x = x := h _ (.head _)
    rw [asRead, if_pos hx, hread]
    rfl
  | read b idx ih =>
    rw [parts_read, List.forall_mem_cons] at h
    obtain ⟨hb, h⟩ : b ∈ names ∧ _ := h
    rw [asRead]
    cases idx with
    | nil =>
      show (if names.contains b then read b [] else var b) = read b []
      rw [if_pos (by simpa using hb)]
    | cons i is =>
      have hmap : ((i :: is).map (·.asRead)).map (·.resolve names) = i :: is := by
        rw [List.map_map]
        refine (List.map_congr_left fun j hj => ?_).trans (List.map_id' _)
        exact ih j hj fun a ha => h a (List.mem_flatMap.2 ⟨j, hj, ha⟩)
      rw [if_neg (by simp), asReadAll_eq_map, resolve_read, hmap]
  | binary op l r ihl ihr =>
    rw [parts_binary, List.forall_mem_cons, List.forall_mem_append] at h
    exact congrArg₂ _ (ihl h.2.1) (ihr h.2.2)
  | neg e ih =>
    rw [parts_neg, List.forall_mem_cons] at h
    rw [asRead, if_neg (by simp [isUnsigned_of_isFaithful h.1])]
    exact congrArg neg (ih h.2)

/-- **Faithful parts are read as themselves**, where the names of buffers are told from others. -/
theorem resolve_asRead {names : List String} (hvars : ∀ v ∈ e.vars, v ∉ names)
    (hbuffers : ∀ b ∈ e.buffers, b ∈ names) (h : ∀ a ∈ e.parts, a.isFaithful = true)
    (hcodec : ∀ x, float x ∈ e.parts → Decimal.reread x = x) : e.asRead.resolve names = e := by
  refine resolve_asRead_of_parts fun a ha => ?_
  cases a with
  | var v => exact hvars v (mem_vars.2 ha)
  | read b idx => exact hbuffers b (mem_buffers.2 ⟨idx, ha⟩)
  | float x => exact ⟨h _ ha, hcodec x ha⟩
  | neg e => exact h _ ha
  | _ => trivial

/-! ### Sameness -/

theorem sameAll_iff {as bs : List Expr} :
    sameAll as bs = true ↔ List.Forall₂ (fun a b => a.same b = true) as bs := by
  induction as generalizing bs with
  | nil => cases bs <;> simp [sameAll]
  | cons a as ih =>
    cases bs with
    | nil => simp [sameAll]
    | cons b bs => simp [sameAll, ih]

/-- **What is read as the same has faithful parts only.** -/
theorem isFaithful_of_same {names : List String} (hleast : int Int64.minValue ∉ e.parts)
    (h : (e.asRead.resolve names).same e = true) : ∀ a ∈ e.parts, a.isFaithful = true := by
  induction e with
  | var v => simp [parts, collect, isFaithful]
  | int n =>
    have hn : n ≠ Int64.minValue := fun hn => hleast (by simp [parts, collect, hn])
    simpa [parts, collect, isFaithful] using hn
  | float x =>
    have hfinite : x.isFinite = true := by
      by_contra hx
      have hname : ∀ v, ((var v).resolve names).same (float x) = false := by
        intro v
        rw [resolve, rebuild]
        split <;> rfl
      rw [asRead, if_neg hx] at h
      split at h
      · rw [hname] at h
        cases h
      · split at h
        · cases h
        · rw [hname] at h
          cases h
    simpa [parts, collect, isFaithful] using hfinite
  | read b idx ih =>
    rw [parts_read, List.forall_mem_cons]
    refine ⟨rfl, fun a ha => ?_⟩
    obtain ⟨i, hi, ha⟩ := List.mem_flatMap.1 ha
    have hne : idx.isEmpty = false := by
      cases idx with
      | nil => cases hi
      | cons => rfl
    rw [asRead, if_neg (by simp [hne]), asReadAll_eq_map, resolve_read, same, Bool.and_eq_true,
      sameAll_iff, List.map_map, List.forall₂_map_left_iff, List.forall₂_same] at h
    refine ih i hi (fun hmem => hleast ?_) (h.2 i hi) a ha
    rw [parts_read]
    exact .tail _ (List.mem_flatMap.2 ⟨i, hi, hmem⟩)
  | binary op l r ihl ihr =>
    have hsides : (l.asRead.resolve names).same l = true ∧
        (r.asRead.resolve names).same r = true := by
      have hboth : ((binary op (l.asRead.resolve names) (r.asRead.resolve names)).same
        (binary op l r)) = true := h
      simpa [same] using hboth
    rw [parts_binary, List.mem_cons, List.mem_append] at hleast
    rw [parts_binary, List.forall_mem_cons, List.forall_mem_append]
    refine ⟨rfl, ihl (fun hl => hleast ?_) hsides.1, ihr (fun hr => hleast ?_) hsides.2⟩
    · exact .inr (.inl hl)
    · exact .inr (.inr hr)
  | neg e ih =>
    have hunsigned : e.isUnsigned = false := by
      -- an unsigned literal takes the sign in, and a literal is no negation
      cases e with
      | int n =>
        by_contra hn
        rw [asRead, if_pos (by simpa using hn)] at h
        cases h
      | float x =>
        by_contra hx
        have hfinite : x.isFinite = true := by
          simp only [isUnsigned, Bool.not_eq_false, Bool.and_eq_true] at hx
          exact hx.1
        rw [asRead, if_pos (by simpa using hx), asRead, if_pos hfinite] at h
        cases h
      | _ => rfl
    rw [asRead, if_neg (by simp [hunsigned])] at h
    have hparts := ih (fun hmem => hleast (.tail _ hmem)) h
    rw [parts_neg, List.forall_mem_cons]
    refine ⟨?_, hparts⟩
    cases e with
    | int n =>
      have hn : ¬ 0 ≤ n := of_decide_eq_false hunsigned
      exact decide_eq_true (Int64.not_le.1 hn)
    | float x =>
      have hfinite : x.isFinite = true := hparts (float x) (by simp [parts, collect])
      show Decimal.isNegative x = true
      simpa [isUnsigned, hfinite] using hunsigned
    | _ => rfl

/-- Integers that are the same are equal. -/
theorem int_mem_parts_of_same {n : Word} {e' : Expr} (h : e'.same e = true) (hn : int n ∈ e.parts) :
    int n ∈ e'.parts := by
  induction e generalizing e' with
  | var v | float x => simp [parts, collect] at hn
  | int m =>
    obtain rfl : n = m := by simpa [parts, collect] using hn
    cases e' with
    | int m =>
      obtain rfl : m = n := by simpa [same] using h
      exact hn
    | _ => simp [same] at h
  | read b idx ih =>
    rw [parts_read, List.mem_cons] at hn
    obtain hn | hn := hn
    · cases hn
    obtain ⟨i, hi, hin⟩ := List.mem_flatMap.1 hn
    cases e' with
    | read b' idx' =>
      rw [same, Bool.and_eq_true, sameAll_iff] at h
      obtain ⟨i', hi', hsame⟩ := exists_of_forall₂ h.2 hi
      rw [parts_read]
      exact .tail _ (List.mem_flatMap.2 ⟨i', hi', ih i hi hsame hin⟩)
    | _ => simp [same] at h
  | binary op l r ihl ihr =>
    rw [parts_binary, List.mem_cons, List.mem_append] at hn
    cases e' with
    | binary op' l' r' =>
      simp only [same, Bool.and_eq_true] at h
      rw [parts_binary, List.mem_cons, List.mem_append]
      obtain hn | hn | hn := hn
      · cases hn
      · exact .inr (.inl (ihl h.1.2 hn))
      · exact .inr (.inr (ihr h.2 hn))
    | _ => simp [same] at h
  | neg e ih =>
    obtain hn | hn := List.mem_cons.1 hn
    · cases hn
    cases e' with
    | neg e' => exact .tail _ (ih h hn)
    | _ => simp [same] at h

theorem same_self (h : ∀ a ∈ e.parts, a.isFaithful = true) : e.same e = true := by
  induction e with
  | var v | int n => simp [same]
  | float x => exact Double.beq_self (h (float x) (by simp [parts, collect]))
  | read b idx ih =>
    rw [parts_read, List.forall_mem_cons] at h
    rw [same, Bool.and_eq_true, sameAll_iff, List.forall₂_same]
    exact ⟨by simp, fun i hi => ih i hi fun a ha => h.2 a (List.mem_flatMap.2 ⟨i, hi, ha⟩)⟩
  | binary op l r ihl ihr =>
    rw [parts_binary, List.forall_mem_cons, List.forall_mem_append] at h
    rw [same, ihl h.2.1, ihr h.2.2]
    simp
  | neg e ih => exact ih fun a ha => h a (.tail _ ha)

end Expr

/-! ## Statements and kernels -/

/-- The expressions of the block and of all nested statements, in program order. -/
def Block.exprs (b : Block) : List Expr := b.nested.flatMap (·.exprs)

theorem Block.exprs_cons (s : Stmt) (rest : Block) : Block.exprs (s :: rest) =
    s.exprs ++ ((s.body?.map Block.exprs).getD [] ++ Block.exprs rest) := by
  rw [Block.exprs, Block.nested_cons, List.flatMap_cons, List.flatMap_append]
  cases s.body? <;> rfl

theorem allSame_iff {α : Type} {same : α → α → Bool} {as bs : List α} :
    allSame same as bs = true ↔ List.Forall₂ (fun a b => same a b = true) as bs := by
  induction as generalizing bs with
  | nil => cases bs <;> simp [allSame]
  | cons a as ih =>
    cases bs with
    | nil => simp [allSame]
    | cons b bs =>
      rw [List.forall₂_cons, ← ih]
      simp only [allSame, List.length_cons, List.zip_cons_cons, List.all_cons, Bool.and_eq_true,
        beq_iff_eq, Nat.add_right_cancel_iff]
      tauto

/-- Both lists have the same expressions in the same places. -/
abbrev SameExprs : List Expr → List Expr → Prop :=
  List.Forall₂ fun a b => a.same b = true

theorem Window.exprs_of_same {w w' : Window} (h : w.same w' = true) :
    SameExprs w.exprs w'.exprs := by
  rw [Window.same, Bool.and_eq_true, allSame_iff] at h
  refine List.rel_flatMap h.2 fun d d' hd => ?_
  cases d <;> cases d' <;> simp_all [WindowDim.same, WindowDim.exprs, BEq.beq]

theorem Decl.exprs_of_same {d d' : Decl} (h : d.same d' = true) : SameExprs d.shape d'.shape := by
  simp only [Decl.same, Bool.and_eq_true] at h
  exact Expr.sameAll_iff.1 h.1.2

/-- Statements that are the same have the same expressions and the same bodies. -/
theorem Stmt.of_same {s s' : Stmt} (h : s.same s' = true) : SameExprs s.exprs s'.exprs ∧
    Option.Rel (fun b b' => Stmt.sameAll b b' = true) s.body? s'.body? := by
  cases s with
  | loop hd body =>
    cases s' with
    | loop hd' body' =>
      simp only [Stmt.same, Header.same, Bool.and_eq_true] at h
      exact ⟨.cons h.1.1.2 .nil, .some h.2⟩
    | _ => simp [Stmt.same] at h
  | guard c body =>
    cases s' with
    | guard c' body' =>
      simp only [Stmt.same, Bool.and_eq_true] at h
      exact ⟨.cons h.1 .nil, .some h.2⟩
    | _ => simp [Stmt.same] at h
  | store u b idx rhs =>
    cases s' with
    | store u' b' idx' rhs' =>
      simp only [Stmt.same, Bool.and_eq_true, Expr.sameAll_iff] at h
      exact ⟨List.rel_append h.1.2 (.cons h.2 .nil), .none⟩
    | _ => simp [Stmt.same] at h
  | alloc d =>
    cases s' with
    | alloc d' => exact ⟨Decl.exprs_of_same h, .none⟩
    | _ => simp [Stmt.same] at h
  | call t args =>
    cases s' with
    | call t' args' =>
      simp only [Stmt.same, Bool.and_eq_true, allSame_iff] at h
      exact ⟨List.rel_flatMap h.2 fun w w' hw => Window.exprs_of_same hw, .none⟩
    | _ => simp [Stmt.same] at h

theorem Block.exprs_of_same {b b' : Block} (h : Stmt.sameAll b b' = true) :
    SameExprs b.exprs b'.exprs := by
  induction b using Block.induction generalizing b' with
  | nil =>
    cases b' with
    | nil => exact .nil
    | cons => simp [Stmt.sameAll] at h
  | cons s rest ihBody ih =>
    cases b' with
    | nil => simp [Stmt.sameAll] at h
    | cons s' rest' =>
      rw [Stmt.sameAll, Bool.and_eq_true] at h
      obtain ⟨hexprs, hbody⟩ := Stmt.of_same h.1
      rw [Block.exprs_cons, Block.exprs_cons]
      refine List.rel_append hexprs (List.rel_append ?_ (ih h.2))
      generalize hs : s.body? = body at hbody
      generalize s'.body? = body' at hbody
      cases hbody with
      | none => exact .nil
      | some hbody => exact ihBody _ hs hbody

/-- A block is the same as itself if its expressions are. -/
theorem Block.same_self {b : Block} (h : ∀ e ∈ b.exprs, e.same e = true) :
    Stmt.sameAll b b = true := by
  induction b using Block.induction with
  | nil => rfl
  | cons s rest ihBody ih =>
    rw [Block.exprs_cons, List.forall_mem_append, List.forall_mem_append] at h
    obtain ⟨hs, hbody, hrest⟩ := h
    rw [Stmt.sameAll, ih hrest, Bool.and_true]
    cases s with
    | loop hd body =>
      have hbound : (hd.bound == hd.bound) = true := hs hd.bound (.head _)
      simp [Stmt.same, Header.same, hbound, ihBody body rfl hbody]
    | guard c body =>
      have hcond : (c == c) = true := hs c (.head _)
      simp [Stmt.same, hcond, ihBody body rfl hbody]
    | store u b idx rhs =>
      rw [Stmt.exprs, List.forall_mem_append, List.forall_mem_singleton] at hs
      have hidx : Expr.sameAll idx idx = true := Expr.sameAll_iff.2 (List.forall₂_same.2 hs.1)
      have hrhs : (rhs == rhs) = true := hs.2
      simp [Stmt.same, hidx, hrhs]
    | alloc d =>
      have hshape : Expr.sameAll d.shape d.shape = true :=
        Expr.sameAll_iff.2 (List.forall₂_same.2 hs)
      simp [Stmt.same, Decl.same, hshape]
    | call t args =>
      have hargs : allSame Window.same args args = true := by
        refine allSame_iff.2 (List.forall₂_same.2 fun w hw => ?_)
        rw [Window.same, Bool.and_eq_true, allSame_iff]
        refine ⟨by simp, List.forall₂_same.2 fun d hd => ?_⟩
        have hd' : ∀ e ∈ d.exprs, (e == e) = true := fun e he =>
          hs e (List.mem_flatMap.2 ⟨w, hw, List.mem_flatMap.2 ⟨d, hd, he⟩⟩)
        cases d <;> simp_all [WindowDim.same, WindowDim.exprs]
      simp [Stmt.same, hargs]

namespace Proc

/-- The expressions of the kernel: of the shapes of its parameters and of its statements. -/
def exprs (p : Proc) : List Expr := p.bufferParams.flatMap (·.shape) ++ Block.exprs p.body

/-- Those and all their sub-expressions. -/
def parts (p : Proc) : List Expr := p.exprs.flatMap (·.parts)

theorem exprs_of_same {p q : Proc} (h : p.same q = true) : SameExprs p.exprs q.exprs := by
  simp only [Proc.same, Bool.and_eq_true, allSame_iff] at h
  refine List.rel_append (List.rel_flatMap ?_ fun d d' hd => Decl.exprs_of_same hd)
    (Block.exprs_of_same h.1.2)
  refine List.rel_filterMap (fun a a' ha => ?_) h.1.1.2
  cases a with
  | size n =>
    cases a' with
    | size n' => exact .none
    | buffer d' => simp [Param.same] at ha
  | buffer d =>
    cases a' with
    | size n' => simp [Param.same] at ha
    | buffer d' => exact .some ha

theorem same_self {p : Proc} (h : ∀ e ∈ p.exprs, e.same e = true) : p.same p = true := by
  obtain ⟨hparams, hbody⟩ := List.forall_mem_append.1 h
  have hsame : allSame Param.same p.params p.params = true := by
    refine allSame_iff.2 (List.forall₂_same.2 fun a ha => ?_)
    cases a with
    | size n => simp [Param.same]
    | buffer d =>
      have hd : d ∈ p.bufferParams := List.mem_filterMap.2 ⟨_, ha, rfl⟩
      have hshape : Expr.sameAll d.shape d.shape = true := Expr.sameAll_iff.2
        (List.forall₂_same.2 fun e he => hparams e (List.mem_flatMap.2 ⟨d, hd, he⟩))
      simp [Param.same, Decl.same, hshape]
  simp [Proc.same, hsame, Block.same_self hbody]

end Proc

end LoopNest
