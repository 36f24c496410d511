import LoopNest.Selector.Cursor
import Mathlib

/-!
# Selectors enumerate every match once, in program order

Places in a kernel are lists of numbers: the path of a statement, and for an expression also the slot
and the steps down from there. Program order is the lexicographic one, in which a place comes before
all places inside it. Walking through statements and expressions lists exactly the places that the
access functions find (`Block.mem_visits`, `Expr.mem_positions`), in this order. So the places that
fit a pattern are all found, once and in order, and a selector with an ordinal picks by position in
that list (`Proc.findAll_enumerates`).
-/

namespace LoopNest

open Stmt Block

variable {path : Path} {i : Nat} {b : Block} {s : Stmt} {es : List Expr} {source : String}

/-! ## Lists of places -/

/-- Places below child `i` come before places below later children. -/
theorem pairwise_append_children (path : List Nat) (i : Nat) {l l' : List (List Nat)}
    (hl : l.Pairwise (· < ·)) (hl' : l'.Pairwise (· < ·))
    (h : ∀ p ∈ l, ∃ rest, p = path ++ i :: rest)
    (h' : ∀ q ∈ l', ∃ j rest, i < j ∧ q = path ++ j :: rest) : (l ++ l').Pairwise (· < ·) := by
  refine List.pairwise_append.2 ⟨hl, hl', fun p hp q hq => ?_⟩
  obtain ⟨rest, rfl⟩ := h p hp
  obtain ⟨j, rest', hlt, rfl⟩ := h' q hq
  exact List.Lex.append_left _ (.rel hlt) path

/-- A place comes before all places below it. -/
theorem pairwise_cons_below {path : List Nat} {l : List (List Nat)} (hl : l.Pairwise (· < ·))
    (h : ∀ p ∈ l, ∃ i rest, p = path ++ i :: rest) : (path :: l).Pairwise (· < ·) := by
  refine List.pairwise_cons.2 ⟨fun p hp => ?_, hl⟩
  obtain ⟨i, rest, rfl⟩ := h p hp
  have hlt : List.Lex (· < ·) (path ++ []) (path ++ i :: rest) := List.Lex.append_left _ .nil path
  rwa [List.append_nil] at hlt

/-! ## Statements -/

theorem Stmt.walk_eq (s : Stmt) (path : Path) :
    s.walk (fun _ => true) path =
      (path, s) :: (s.body?.map (walkFrom (fun _ => true) path 0)).getD [] := by
  cases s <;> simp [walk, body?]

theorem Stmt.mem_walkFrom {q : Path} :
    (q, s) ∈ walkFrom (fun _ => true) path i b ↔
      ∃ j rest, q = path ++ (i + j) :: rest ∧ b.get? (j :: rest) = some s := by
  induction b using Block.induction generalizing path i with
  | nil =>
    refine ⟨fun h => absurd h List.not_mem_nil, ?_⟩
    rintro ⟨j, rest, -, h⟩
    cases rest <;> simp [Block.get?] at h
  | cons t b ihs ihrest =>
    rw [walkFrom, List.mem_append, ihrest, walk_eq, List.mem_cons, Path.child]
    -- a visit is to the first statement, into its body, or to what is behind it
    constructor
    · rintro ((h | h) | ⟨j, rest, rfl, h⟩)
      · obtain ⟨rfl, rfl⟩ := Prod.mk.inj h
        exact ⟨0, [], rfl, rfl⟩
      · cases hbody : t.body? with
        | none => simp [hbody] at h
        | some body =>
          rw [hbody] at h
          obtain ⟨j, rest, rfl, hget⟩ := (ihs body hbody).1 h
          refine ⟨0, j :: rest, by simp, ?_⟩
          rw [get?_zero (by simp), hbody]
          exact hget
      · exact ⟨j + 1, rest, by rw [Nat.add_assoc, Nat.add_comm 1], by rwa [get?_succ]⟩
    · rintro ⟨j, rest, rfl, h⟩
      cases j with
      | zero =>
        left
        cases rest with
        | nil =>
          cases h
          exact .inl rfl
        | cons k rest =>
          rw [get?_zero (by simp), Option.bind_eq_some_iff] at h
          obtain ⟨body, hbody, h⟩ := h
          right
          rw [hbody]
          exact (ihs body hbody).2 ⟨k, rest, by simp, h⟩
      | succ j =>
        exact .inr ⟨j, rest, by rw [Nat.add_assoc, Nat.add_comm 1], by rwa [get?_succ] at h⟩

/-- All statements are visited. -/
theorem Block.mem_visits : (path, s) ∈ b.visits ↔ b.get? path = some s := by
  rw [visits, mem_walkFrom]
  constructor
  · rintro ⟨j, rest, rfl, h⟩
    simpa using h
  · intro h
    cases path with
    | nil => cases h
    | cons j rest => exact ⟨j, rest, by simp, h⟩

theorem Stmt.below_of_mem_walkFrom {q : Path}
    (h : q ∈ (walkFrom (fun _ => true) path i b).map (·.1)) :
    ∃ j rest, i ≤ j ∧ q = path ++ j :: rest := by
  obtain ⟨⟨q, s⟩, hmem, rfl⟩ := List.mem_map.1 h
  obtain ⟨j, rest, rfl, -⟩ := mem_walkFrom.1 hmem
  exact ⟨i + j, rest, Nat.le_add_right i j, rfl⟩

theorem Stmt.walkFrom_ordered (b : Block) (path : Path) (i : Nat) :
    ((walkFrom (fun _ => true) path i b).map (·.1)).Pairwise (· < ·) := by
  induction b using Block.induction generalizing path i with
  | nil => exact .nil
  | cons t b ihs ihrest =>
    rw [walkFrom, List.map_append, walk_eq, List.map_cons, Path.child]
    have hbelow : ∀ q ∈ ((t.body?.map (walkFrom (fun _ => true) (path ++ [i]) 0)).getD []).map
        (·.1), ∃ j rest, q = path ++ [i] ++ j :: rest := by
      intro q hq
      cases hbody : t.body? with
      | none => simp [hbody] at hq
      | some body =>
        rw [hbody] at hq
        obtain ⟨j, rest, -, rfl⟩ := below_of_mem_walkFrom hq
        exact ⟨j, rest, rfl⟩
    refine pairwise_append_children path i (pairwise_cons_below ?_ hbelow)
      (ihrest path (i + 1)) (fun p hp => ?_) fun q hq => ?_
    · cases hbody : t.body? with
      | none => exact .nil
      | some body => exact ihs body hbody _ _
    · obtain rfl | hp := List.mem_cons.1 hp
      · exact ⟨[], rfl⟩
      · obtain ⟨j, rest, rfl⟩ := hbelow p hp
        exact ⟨j :: rest, by simp⟩
    · obtain ⟨j, rest, hle, rfl⟩ := below_of_mem_walkFrom hq
      exact ⟨j, rest, hle, rfl⟩

/-! ## Expressions -/

namespace Expr

theorem induction_children {Q : Expr → Prop} (step : ∀ e, (∀ c ∈ e.children, Q c) → Q e)
    (e : Expr) : Q e := by
  induction e with
  | read b idx ih => exact step _ ih
  | binary op l r ihl ihr => exact step _ (by simpa [children] using ⟨ihl, ihr⟩)
  | neg e ih => exact step _ (by simpa [children] using ih)
  | var | int | float => exact step _ nofun

theorem positions_eq (e : Expr) (steps : List Nat) :
    e.positions steps = (steps.reverse, e) :: positionsFrom steps 0 e.children := by
  cases e <;> simp [positions, positionsFrom, children]

/-- The positions below an expression are those of its children. -/
theorem mem_positionsFrom {steps q : List Nat} {sub : Expr}
    (h : ∀ e ∈ es, ∀ {steps q}, (q, sub) ∈ e.positions steps ↔
      ∃ p, q = steps.reverse ++ p ∧ e.get? p = some sub) :
    (q, sub) ∈ positionsFrom steps i es ↔
      ∃ j p, q = steps.reverse ++ (i + j) :: p ∧ (es[j]?).bind (get? p) = some sub := by
  induction es generalizing i with
  | nil => simp [positionsFrom]
  | cons e es ih =>
    obtain ⟨he, hes⟩ := List.forall_mem_cons.1 h
    rw [positionsFrom, List.mem_append, he, ih hes]
    constructor
    · rintro (⟨p, rfl, hp⟩ | ⟨j, p, rfl, hp⟩)
      · exact ⟨0, p, by simp, hp⟩
      · exact ⟨j + 1, p, by rw [Nat.add_assoc, Nat.add_comm 1], hp⟩
    · rintro ⟨j, p, rfl, hp⟩
      cases j with
      | zero => exact .inl ⟨p, by simp, hp⟩
      | succ j => exact .inr ⟨j, p, by rw [Nat.add_assoc, Nat.add_comm 1], hp⟩

/-- All sub-expressions are listed with their positions. -/
theorem mem_positions {e sub : Expr} {steps q : List Nat} :
    (q, sub) ∈ e.positions steps ↔ ∃ p, q = steps.reverse ++ p ∧ e.get? p = some sub := by
  induction e using induction_children generalizing steps q with
  | step e ih =>
    rw [positions_eq, List.mem_cons, mem_positionsFrom ih]
    constructor
    · rintro (h | ⟨j, p, rfl, hp⟩)
      · obtain ⟨rfl, rfl⟩ := Prod.mk.inj h
        exact ⟨[], by simp, rfl⟩
      · exact ⟨j :: p, by simp, hp⟩
    · rintro ⟨p, rfl, hp⟩
      cases p with
      | nil =>
        cases hp
        exact .inl (by simp)
      | cons j p => exact .inr ⟨j, p, by simp, hp⟩

theorem below_of_mem_positionsFrom {steps q : List Nat}
    (h : q ∈ (positionsFrom steps i es).map (·.1)) :
    ∃ j rest, i ≤ j ∧ q = steps.reverse ++ j :: rest := by
  obtain ⟨⟨q, sub⟩, hmem, rfl⟩ := List.mem_map.1 h
  obtain ⟨j, rest, rfl, -⟩ := (mem_positionsFrom fun _ _ => mem_positions).1 hmem
  exact ⟨i + j, rest, Nat.le_add_right i j, rfl⟩

theorem positions_ordered (e : Expr) (steps : List Nat) :
    ((e.positions steps).map (·.1)).Pairwise (· < ·) := by
  induction e using induction_children generalizing steps with
  | step e ih =>
    rw [positions_eq, List.map_cons]
    -- the children are numbered from the left
    have hfrom : ∀ (es : List Expr) (i : Nat), (∀ c ∈ es, ∀ steps,
        ((c.positions steps).map (·.1)).Pairwise (· < ·)) →
          ((positionsFrom steps i es).map (·.1)).Pairwise (· < ·) := by
      intro es
      induction es with
      | nil => exact fun _ _ => .nil
      | cons c es ihes =>
        intro i h
        obtain ⟨hc, hes⟩ := List.forall_mem_cons.1 h
        rw [positionsFrom, List.map_append]
        refine pairwise_append_children steps.reverse i (hc _) (ihes _ hes)
          (fun p hp => ?_) fun q hq => ?_
        · obtain ⟨⟨q, sub⟩, hmem, rfl⟩ := List.mem_map.1 hp
          obtain ⟨p, rfl, -⟩ := mem_positions.1 hmem
          exact ⟨p, by simp⟩
        · obtain ⟨j, rest, hle, rfl⟩ := below_of_mem_positionsFrom hq
          exact ⟨j, rest, hle, rfl⟩
    refine pairwise_cons_below (hfrom _ _ ih) fun p hp => ?_
    obtain ⟨j, rest, -, rfl⟩ := below_of_mem_positionsFrom hp
    exact ⟨j, rest, rfl⟩

end Expr

/-! ## Cursors -/

namespace Cursor

/-- The place in its statement: nothing for the statement itself, else the slot and the steps. -/
def inner : Cursor → List Nat
  | stmt _ => []
  | expr _ slot steps => slot :: steps

/-- Program order: by statement, then by slot, then by the steps down from there. -/
def Before (c c' : Cursor) : Prop := c.path < c'.path ∨ c.path = c'.path ∧ c.inner < c'.inner

theorem Before.ne {c c' : Cursor} (h : c.Before c') : c ≠ c' := by
  rintro rfl
  obtain h | ⟨-, h⟩ := h
  · exact List.lt_irrefl _ h
  · exact List.lt_irrefl _ h

/-- The cursor addresses a statement or an expression of the kernel, and the pattern fits it. -/
def Fits (p : Proc) (pattern : Pattern) : Cursor → Prop
  | stmt path => ∃ s, p.stmt? path = some s ∧ pattern.fits s = true
  | expr path slot steps =>
    ∃ e sub, pattern = .expr e ∧ p.expr? path slot steps = some sub ∧ e.fits sub = true

end Cursor

namespace Proc

variable {p : Proc} {pattern : Pattern} {c : Cursor}

theorem mem_exprMatches {e : Expr} :
    c ∈ exprMatches e path s ↔ ∃ slot steps x sub, c = .expr path slot steps ∧
      s.exprs[slot]? = some x ∧ x.get? steps = some sub ∧ e.fits sub = true := by
  simp only [exprMatches, List.mem_flatMap, List.mem_filterMap, Prod.exists,
    List.mem_zipIdx_iff_getElem?, Expr.mem_positions, List.reverse_nil, List.nil_append,
    Option.ite_none_right_eq_some, Option.some.injEq]
  constructor
  · rintro ⟨x, slot, hx, steps, sub, ⟨_, rfl, hsub⟩, hfits, rfl⟩
    exact ⟨slot, steps, x, sub, rfl, hx, hsub, hfits⟩
  · rintro ⟨slot, steps, x, sub, rfl, hx, hsub, hfits⟩
    exact ⟨x, slot, hx, steps, sub, ⟨steps, rfl, hsub⟩, hfits, rfl⟩

/-- The expressions of one statement are found slot by slot. -/
theorem exprMatches_ordered (e : Expr) (path : Path) (s : Stmt) :
    (exprMatches e path s).Pairwise Cursor.Before := by
  have hslots : s.exprs.zipIdx.Pairwise fun a b => a.2 < b.2 := by
    rw [← List.pairwise_map, List.zipIdx_map_snd]
    exact List.pairwise_lt_range'
  have hmatch : ∀ {steps : List Nat} {sub : Expr} {slot : Nat} {c : Cursor},
      (if e.fits sub then some (Cursor.expr path slot steps) else none) = some c →
        c = .expr path slot steps :=
    fun h => (Option.some.inj (Option.ite_none_right_eq_some.1 h).2).symm
  refine List.pairwise_flatMap.2 ⟨fun ⟨x, slot⟩ _ => ?_, hslots.imp fun {a b} hlt c hc c' hc' => ?_⟩
  · refine List.pairwise_filterMap.2 ((List.pairwise_map.1 (x.positions_ordered [])).imp ?_)
    intro a b hlt c hc c' hc'
    rw [hmatch hc, hmatch hc']
    exact .inr ⟨rfl, .cons hlt⟩
  · obtain ⟨_, -, hc⟩ := List.mem_filterMap.1 hc
    obtain ⟨_, -, hc'⟩ := List.mem_filterMap.1 hc'
    rw [hmatch hc, hmatch hc']
    exact .inr ⟨rfl, .rel hlt⟩

/-- Every place that fits is found, and nothing else. -/
theorem mem_findAll : c ∈ p.findAll pattern ↔ c.Fits p pattern := by
  simp only [findAll, List.mem_flatMap, Prod.exists, mem_visits]
  cases pattern with
  | expr e =>
    simp only [mem_exprMatches]
    constructor
    · rintro ⟨path, s, hs, slot, steps, x, sub, rfl, hx, hsub, hfits⟩
      exact ⟨e, sub, rfl, by simp [expr?, stmt?, hs, hx, hsub], hfits⟩
    · intro h
      cases c with
      | stmt path =>
        obtain ⟨s, -, hfits⟩ := h
        cases s <;> cases hfits
      | expr path slot steps =>
        obtain ⟨_, sub, ⟨⟩, hsub, hfits⟩ := h
        simp only [expr?, Option.bind_eq_bind, Option.bind_eq_some_iff] at hsub
        obtain ⟨s, hs, x, hx, hsub⟩ := hsub
        exact ⟨path, s, hs, slot, steps, x, sub, rfl, hx, hsub, hfits⟩
  | _ =>
    simp only [List.mem_ite_nil_right, List.mem_singleton]
    constructor
    · rintro ⟨path, s, hs, hfits, rfl⟩
      exact ⟨s, hs, hfits⟩
    · intro h
      cases c with
      | stmt path =>
        obtain ⟨s, hs, hfits⟩ := h
        exact ⟨path, s, hs, hfits, rfl⟩
      | expr path slot steps =>
        obtain ⟨_, _, ⟨⟩, -⟩ := h

theorem findAll_ordered (p : Proc) (pattern : Pattern) :
    (p.findAll pattern).Pairwise Cursor.Before := by
  have hvisits := List.pairwise_map.1 (walkFrom_ordered p.body [] 0)
  refine List.pairwise_flatMap.2 ⟨fun v _ => ?_, hvisits.imp fun {a b} hlt c hc c' hc' => .inl ?_⟩
  · cases pattern with
    | expr e => exact exprMatches_ordered e v.1 v.2
    | _ =>
      simp only
      split
      · exact List.pairwise_singleton _ _
      · exact .nil
  · cases pattern with
    | expr e =>
      obtain ⟨_, _, _, _, rfl, -⟩ := mem_exprMatches.1 hc
      obtain ⟨_, _, _, _, rfl, -⟩ := mem_exprMatches.1 hc'
      exact hlt
    | _ =>
      rw [List.mem_singleton.1 (List.mem_ite_nil_right.1 hc).2,
        List.mem_singleton.1 (List.mem_ite_nil_right.1 hc').2]
      exact hlt

theorem resolve?_ordinal {k : Nat} :
    p.resolve? ⟨pattern, some k, source⟩ = .ok c ↔ (p.findAll pattern)[k]? = some c := by
  simp only [resolve?]
  cases (p.findAll pattern)[k]? <;> simp

theorem resolve?_only : p.resolve? ⟨pattern, none, source⟩ = .ok c ↔ p.findAll pattern = [c] := by
  simp only [resolve?]
  split <;> simp_all

theorem mem_findAll_of_resolve? {sel : Selector} (h : p.resolve? sel = .ok c) :
    c ∈ p.findAll sel.pattern := by
  obtain ⟨pattern, _ | k, source⟩ := sel
  · rw [resolve?_only.1 h]
    exact List.mem_singleton_self c
  · exact List.mem_of_getElem? (resolve?_ordinal.1 h)

/-- **Selectors enumerate every match once, in program order.** -/
theorem findAll_enumerates (p : Proc) (pattern : Pattern) :
    (p.findAll pattern).Nodup ∧ (p.findAll pattern).Pairwise Cursor.Before ∧
      (∀ c, c ∈ p.findAll pattern ↔ c.Fits p pattern) ∧
      ∀ source,
        (∀ k c, p.resolve? ⟨pattern, some k, source⟩ = .ok c ↔ (p.findAll pattern)[k]? = some c) ∧
        (∀ k, p.resolve? ⟨pattern, some k, source⟩ = .error (.notFound source) ↔
          (p.findAll pattern).length ≤ k) ∧
        ∀ c, p.resolve? ⟨pattern, none, source⟩ = .ok c ↔ p.findAll pattern = [c] := by
  refine ⟨(findAll_ordered p pattern).imp Cursor.Before.ne, findAll_ordered p pattern,
    fun c => mem_findAll,
    fun source => ⟨fun k c => resolve?_ordinal, fun k => ?_, fun c => resolve?_only⟩⟩
  rw [← List.getElem?_eq_none_iff]
  simp only [resolve?]
  cases (p.findAll pattern)[k]? <;> simp

end Proc

end LoopNest
