import LoopNest.Proofs.Trace.Reseat
import LoopNest.Step.LiftAlloc

/-!
# Traces with more leading indices

Where a buffer stands for the part of a tensor behind fixed coordinates, a block may as well see the
whole tensor and name these coordinates itself: with the variables that have them as its first
indices, it does the same, with tensors in other seats (`Stmt.traceAll_opened`).
-/

namespace LoopNest

variable {x : String} {cuts : List Cut} {b : Block}

/-! ## Views -/

/-- A dimension of which no part is left out. -/
def ViewDim.whole (extent : Nat) : ViewDim := .free 0 (Int64.ofNat extent)

/-- The index is one of the extent, as far as a view can tell. -/
def ViewDim.Has (l : Word × Nat) : Prop := 0 ≤ l.1.toInt ∧ l.1.toInt < (Int64.ofNat l.2).toInt

theorem ViewDim.has_of_lt {n : Word} {k : Nat} (hk : k < n.toInt.toNat) :
    Has (Int64.ofNat k, n.toInt.toNat) := by
  have hn := Word.toInt_mem n
  have hextent : (Int64.ofNat n.toInt.toNat).toInt = n.toInt := by
    rw [← Int64.ofInt_eq_ofNat, Int64.toInt_ofInt_of_le (by omega) (by omega)]
    omega
  unfold Has
  rw [Word.toInt_ofNat hk, hextent]
  omega

namespace View

variable {leads : List (Word × Nat)}

/-- Indices within their extents lead to the coordinates themselves. -/
theorem Finds.opened (hin : ∀ l ∈ leads, ViewDim.Has l) {dims : List ViewDim} {index cs : List Word}
    (h : Finds (leads.map (.fixed ·.1) ++ dims) index cs) :
    Finds (leads.map (.whole ·.2) ++ dims) (leads.map (·.1) ++ index) cs := by
  induction leads generalizing cs with
  | nil => exact h
  | cons l leads ih =>
    obtain ⟨⟨hlo, hhi⟩, hin⟩ := List.forall_mem_cons.1 hin
    obtain _ | ⟨_, h⟩ := h
    exact .free hlo hhi (Int.zero_add _).symm (ih hin h)

theorem Narrows.opened (hin : ∀ l ∈ leads, ViewDim.Has l) {dims dims' : List ViewDim}
    (h : Narrows (leads.map (.fixed ·.1) ++ dims) cuts dims') :
    Narrows (leads.map (.whole ·.2) ++ dims) (leads.map (.point ·.1) ++ cuts) dims' := by
  induction leads generalizing dims' with
  | nil => exact h
  | cons l leads ih =>
    obtain ⟨⟨hlo, hhi⟩, hin⟩ := List.forall_mem_cons.1 hin
    obtain _ | ⟨_, h⟩ := h
    exact .point hlo hhi (Int.zero_add _).symm (ih hin h)

end View

/-! ## Environments -/

/-- The variables have these indices, which are within these extents. -/
def Env.Leads (env : Env) (lead : List String) (leads : List (Word × Nat)) : Prop :=
  List.Forall₂ (fun x l => env.value? x = some l.1 ∧ ViewDim.Has l) lead leads

namespace Env.Leads

variable {env : Env} {lead : List String} {leads : List (Word × Nat)}

variable (h : env.Leads lead leads)
include h

theorem within : ∀ l ∈ leads, ViewDim.Has l := by
  induction h with
  | nil => simp
  | cons hx _ ih => exact List.forall_mem_cons.2 ⟨hx.2, ih⟩

theorem value? (hx : x ∈ lead) : ∃ n, env.value? x = some n := by
  induction h with
  | nil => cases hx
  | cons hy _ ih =>
    obtain rfl | hx := List.mem_cons.1 hx
    · exact ⟨_, hy.1⟩
    · exact ih hx

theorem mono {env' : Env} (hvalue : ∀ {x n}, env.value? x = some n → env'.value? x = some n) :
    env'.Leads lead leads :=
  h.imp fun _ _ hx => ⟨hvalue hx.1, hx.2⟩

theorem concat {l : Word × Nat} (hx : env.value? x = some l.1) (hl : ViewDim.Has l) :
    env.Leads (lead ++ [x]) (leads ++ [l]) :=
  List.rel_append h (.cons ⟨hx, hl⟩ .nil)

theorem bind (hx : x ∉ lead) (b : Binding) : Env.Leads (env.bind x b) lead leads := by
  induction h with
  | nil => exact .nil
  | cons hy _ ih =>
    rw [List.mem_cons, not_or] at hx
    refine .cons ⟨?_, hy.2⟩ (ih hx.2)
    rw [value?_bind, if_neg (Ne.symm hx.1)]
    exact hy.1

end Env.Leads

/-- Where the buffer shows a part behind fixed coordinates, its leading dimensions are free in the
second environment, and the variables `lead` have the coordinates. All else is in its seat. -/
structure Env.Opens (ρ : Nat → Seat) (buf : String) (lead : List String) (env env' : Env) : Prop
    extends Env.SeatsBut [buf] ρ env env' where
  buffer : ∀ {v}, env.view? buf = some v → ∃ (leads : List (Word × Nat)) (u : View)
    (dims : List ViewDim), u.dims = leads.map (.fixed ·.1) ++ dims ∧ (ρ v.tensor).Shows v u ∧
      env'.view? buf = some { u with dims := leads.map (.whole ·.2) ++ dims } ∧
      env'.Leads lead leads

namespace Env.Opens

variable {ρ : Nat → Seat} {buf : String} {lead : List String} {env env' : Env}

/-- A binding of another name. Where the buffer is bound, it is none of the variables. -/
theorem bind (h : env.Opens ρ buf lead env') (hx : x ≠ buf)
    (hlead : x ∈ lead → env.view? buf = none) {b b' : Binding}
    (hseats : Env.SeatsBut [buf] ρ (env.bind x b) (env'.bind x b')) :
    Env.Opens ρ buf lead (env.bind x b) (env'.bind x b') where
  toSeatsBut := hseats
  buffer {v} hv := by
    rw [view?_bind_of_ne hx] at hv ⊢
    obtain ⟨leads, u, dims, hdims, hshows, hview, hleads⟩ := h.buffer hv
    have hnot : x ∉ lead := fun hmem => by simp [hlead hmem] at hv
    exact ⟨leads, u, dims, hdims, hshows, hview, hleads.bind hnot b'⟩

end Env.Opens

/-! ## The parts of a statement -/

/-- Expressions with an index as their value read nothing. -/
theorem Expr.prependIndices_of_wide? {env : Env} {e : Expr} {z : Int} (h : env.wide? e = some z)
    (buf : String) (lead : List Expr) : e.prependIndices buf lead = e := by
  unfold prependIndices
  induction e generalizing z with
  | var x | int n | float x => rfl
  | read b idx => cases h
  | binary op l r ihl ihr =>
    obtain ⟨x, y, hx, hy, -⟩ := Env.wide?_binary_eq_some.1 h
    rw [rebuild, ihl hx, ihr hy]
  | neg e ih =>
    obtain ⟨x, hx, -⟩ := Env.wide?_neg_eq_some.1 h
    rw [rebuild, ih hx]

namespace Evaluator

variable {ev : Evaluator} {lead : List String} {env env' : Env}

theorem keeps_opened (h : ∀ {x n}, env.value? x = some n → env'.value? x = some n) (buf : String)
    (es : List Expr) : ev.Keeps env env' (·.prependIndices buf es) := by
  intro e n he
  show ev.eval env' (e.prependIndices buf es) = some n
  rw [Expr.prependIndices_of_wide? (ev.to_wide he)]
  exact Keeps.of_value? h e n he

section leading

variable {leads : List (Word × Nat)}

theorem indices_opened (h : env'.Leads lead leads) {es : List Expr} {ns : List Word}
    (hes : ev.indices env' es = some ns) :
    ev.indices env' (lead.map .var ++ es) = some (leads.map (·.1) ++ ns) := by
  rw [indices_eq_some] at hes ⊢
  refine List.rel_append ?_ hes
  rw [List.forall₂_map_left_iff, List.forall₂_map_right_iff]
  exact h.imp fun _ _ hx => ev.of_index (Env.index_var_eq_ok.2 hx.1)

theorem cuts_opened (h : env'.Leads lead leads) {ds : List WindowDim}
    (hds : ev.cuts env' ds = some cuts) :
    ev.cuts env' ((lead.map Expr.var).map .point ++ ds) =
      some (leads.map (.point ·.1) ++ cuts) := by
  rw [cuts_eq_some] at hds ⊢
  refine List.rel_append ?_ hds
  rw [List.map_map, List.forall₂_map_left_iff, List.forall₂_map_right_iff]
  exact h.imp fun _ _ hx => cut_point.2 ⟨_, ev.of_index (Env.index_var_eq_ok.2 hx.1), rfl⟩

end leading

end Evaluator

namespace Rewording

/-- Put variables as the first indices of a buffer. If the buffer stands for something, none of them
may be bound. -/
def opening (buf : String) (lead : List String) (stands : Option View) : Rewording where
  index := (·.prependIndices buf (lead.map .var))
  access b idx b' idx' := b' = b ∧ idx' =
    if b = buf then lead.map .var ++ idx.map (·.prependIndices buf (lead.map .var))
      else idx.map (·.prependIndices buf (lead.map .var))
  window a a' := a' = if a.buf = buf then
      { a with
        dims := (lead.map Expr.var).map .point ++
          (a.mapExprs (·.prependIndices buf (lead.map .var))).dims }
    else a.mapExprs (·.prependIndices buf (lead.map .var))
  binds x := x ≠ buf ∧ (x ∈ lead → stands = none)

variable {buf : String} {lead : List String} {stands : Option View}

theorem opening_data (e : Expr) :
    (opening buf lead stands).Data e (e.prependIndices buf (lead.map .var)) := by
  induction e with
  | var v => exact .var v
  | int n => exact .int n
  | float x => exact .float x
  | read b idx =>
    refine .read ⟨rfl, ?_⟩
    rw [Expr.rebuildAll_eq_map]
    rfl
  | binary op l r ihl ihr => exact .binary ihl ihr
  | neg e ih => exact .neg ih

theorem opening_turns (h : ∀ x ∈ b.binders, (opening buf lead stands).binds x) :
    (opening buf lead stands).Turns b (Stmt.mapAll (·.prependHere buf (lead.map .var)) b) := by
  induction b using Block.induction with
  | nil => exact .nil
  | cons s rest ihs ihrest =>
    rw [Block.binders_cons, List.forall_mem_append] at h
    have hrest := ihrest h.2
    cases s with
    | loop hd body =>
      obtain ⟨hvar, hbody⟩ := List.forall_mem_cons.1 h.1
      exact .loop hvar (ihs body rfl hbody) hrest
    | guard e body => exact .guard (ihs body rfl h.1) hrest
    | store u b idx rhs => exact .store ⟨rfl, rfl⟩ (opening_data rhs) hrest
    | alloc d => exact .alloc (h.1 d.name (.head _)) hrest
    | call t args =>
      refine .call ?_ hrest
      rw [List.map_map, List.forall₂_map_right_iff]
      exact List.forall₂_same.2 fun _ _ => rfl

/-- An index of the part leads where it leads behind the coordinates, and a window of the part is one
of the whole, with the coordinates as its first points. -/
theorem opening_sound {ρ : Nat → Seat} {ev : Evaluator} (stands' : Option View) :
    (opening buf lead stands).Sound (.seats ρ) ev fun env env' =>
      env.Opens ρ buf lead env' ∧ env.view? buf = stands ∧ env'.view? buf = stands' where
  keeps h := Evaluator.keeps_opened h.1.value buf _
  operands _ _ _ := rfl
  value lay lay' h hx := (Simulation.seats ρ).term_var (h.1.value hx) lay lay'
  place {env env' lay lay' b b' idx idx' p} hρ h hb hp := by
    obtain ⟨rfl, rfl⟩ := hb
    have hkeep : ev.Keeps env env' _ := Evaluator.keeps_opened h.1.value buf (lead.map .var)
    split
    next hbuf =>
      subst hbuf
      obtain ⟨v, ns, hv, hns, hp⟩ := Evaluator.place_eq_some.1 hp
      obtain ⟨leads, u, dims, hdims, hshows, hview, hleads⟩ := h.1.buffer hv
      obtain ⟨q, hq, hplace⟩ := (Simulation.seats ρ).view_place hρ hshows hp
      obtain ⟨cs, s, hcs, hslot⟩ := View.place?_eq_some.1 hplace
      exact ⟨q, hq, Evaluator.place_eq_some.2 ⟨_, _, hview,
        Evaluator.indices_opened hleads (hkeep.indices hns),
        View.place?_eq_some.2 ⟨cs, s, (hdims ▸ hcs).opened hleads.within, hslot⟩⟩⟩
    next hbuf =>
      exact (Simulation.seats ρ).place hkeep (h.1.view (by simpa using hbuf)) hρ hp
  view {env env' a a' v} h ha hv := by
    subst ha
    have hkeep : ev.Keeps env env' _ := Evaluator.keeps_opened h.1.value buf (lead.map .var)
    split
    next hbuf =>
      subst hbuf
      obtain ⟨base, cuts, cut, hbase, hcuts, hcut, rfl⟩ := Evaluator.window_eq_some.1 hv
      obtain ⟨leads, u, dims, hdims, hshows, hview, hleads⟩ := h.1.buffer hbase
      obtain ⟨dims', hdims', hshows'⟩ := hshows.cut hcut
      exact ⟨_, Evaluator.window_eq_some.2 ⟨{ u with dims := leads.map (.whole ·.2) ++ dims }, _, dims',
        hview, Evaluator.cuts_opened hleads (hkeep.cuts hcuts),
        (hdims ▸ hdims').opened hleads.within, rfl⟩, hshows'⟩
    next hbuf => exact (Simulation.seats ρ).window hkeep (h.1.view (by simpa using hbuf)) hv
  bind_index n hx h := by
    refine ⟨h.1.bind hx.1 (fun hmem => h.2.1.trans (hx.2 hmem)) (h.1.toSeatsBut.bind_index _ n), ?_⟩
    exact ⟨(Env.view?_bind_of_ne hx.1 _).trans h.2.1, (Env.view?_bind_of_ne hx.1 _).trans h.2.2⟩
  bind_whole shape hx hρ h := by
    refine ⟨h.1.bind hx.1 (fun hmem => h.2.1.trans (hx.2 hmem))
      (h.1.toSeatsBut.bind_buffer _ (hρ.shows_next _ _ shape)), ?_⟩
    exact ⟨(Env.view?_bind_of_ne hx.1 _).trans h.2.1, (Env.view?_bind_of_ne hx.1 _).trans h.2.2⟩
  omits hs := hs.elim

end Rewording

/-- **More leading indices.** No statement of the block binds the buffer or, where the buffer is
bound, one of the variables. Then the block with these variables as the first indices of the buffer
does the same. -/
theorem Stmt.traceAll_opened {ev : Evaluator} {c : Catalog} {callee : Callee} (hc : callee.Closed)
    (hcallee : callee.Seated) {ρ : Nat → Seat} {lay lay' : Layout} (hρ : Seats ρ lay lay')
    {buf : String} {lead : List String} {env env' e : Env}
    (hspared : ∀ x ∈ b.binders, x ≠ buf ∧ (x ∈ lead → env.view? buf = none))
    (h : env.Opens ρ buf lead env') {acts : List Action}
    (ht : Stmt.traceAll ev c callee env lay b = some (acts, e)) :
    ∃ acts' e', Stmt.traceAll ev c callee env' lay'
        (Stmt.mapAll (·.prependHere buf (lead.map .var)) b) = some (acts', e') ∧
      Reseats ρ lay lay' acts acts' ∧ e.Opens ρ buf lead e' ∧ e.view? buf = env.view? buf ∧
      e'.view? buf = env'.view? buf :=
  (Rewording.opening_turns hspared).traceAll (Rewording.opening_sound (env'.view? buf)) hc
    (hcallee ρ) hρ ⟨h, rfl, rfl⟩ ht

end LoopNest
