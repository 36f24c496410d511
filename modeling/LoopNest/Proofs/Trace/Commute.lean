import LoopNest.Proofs.Trace.Layout

/-!
# Lists of actions that may change places

Two lists of actions that leave no tensors behind commute when neither writes what the other one
touches (`Equiv.swap`). No property of the arithmetic is used. From this follow the two ways to
rearrange rounds: splitting every round into a first and a second half and running all first halves
first (`Equiv.distribute`), and exchanging two nested iterations (`Equiv.interchange`).
-/

namespace LoopNest

variable {acts : List Action}

/-! ## Elements of a store -/

namespace Store

variable {α : Type} {st st' : Store α} {p : Place}

/-- A store is its layout and its elements. -/
theorem ext_at (hlay : st.layout = st'.layout) (hat : ∀ p, st.at? p = st'.at? p) : st = st' := by
  apply List.ext_getElem?
  intro i
  have hslot : (st[i]?).map Tensor.slot = (st'[i]?).map Tensor.slot := by
    rw [← List.getElem?_map, ← List.getElem?_map]
    exact congrArg (·[i]?) hlay
  cases ht : st[i]? with
  | none =>
    cases ht' : st'[i]? with
    | none => rfl
    | some t' => simp [ht, ht'] at hslot
  | some t =>
    cases ht' : st'[i]? with
    | none => simp [ht, ht'] at hslot
    | some t' =>
      simp only [ht, ht', Option.map_some, Option.some.injEq, Tensor.slot, Slot.mk.injEq] at hslot
      have hdata : t.data = t'.data := by
        apply Array.ext_getElem?
        intro j
        simpa [at?, ht, ht'] using hat (i, j)
      cases t
      cases t'
      simp_all

theorem at?_eq_none (h : st.length ≤ p.1) : st.at? p = none := by
  simp [at?, List.getElem?_eq_none h]

theorem at?_of_slot {slot : Slot} (hslot : st.layout[p.1]? = some slot) (hp : p.2 < slot.size) :
    ∃ x, st.at? p = some x := by
  rw [layout, List.getElem?_map, Option.map_eq_some_iff] at hslot
  obtain ⟨t, ht, rfl⟩ := hslot
  exact ⟨t.data[p.2], by simp only [at?, ht, Option.bind_some]; exact Array.getElem?_eq_getElem hp⟩

/-- Stores with the same layout have elements in the same places. -/
theorem exists_at?_of_layout {β : Type} {st' : Store β} (hlay : st.layout = st'.layout) {x : α}
    (hx : st.at? p = some x) : ∃ y, st'.at? p = some y := by
  rw [at?, Option.bind_eq_some_iff] at hx
  obtain ⟨t, ht, hx⟩ := hx
  have hslot : st.layout[p.1]? = some t.slot := by
    rw [layout, List.getElem?_map, ht, Option.map_some]
  exact at?_of_slot (hlay ▸ hslot) (Array.getElem?_eq_some_iff.1 hx).1

/-- Stores with the same layout are equal if one has the elements of the other. -/
theorem eq_of_at? (hlay : st.layout = st'.layout)
    (h : ∀ p x, st.at? p = some x → st'.at? p = some x) : st = st' := by
  refine ext_at hlay fun p => ?_
  cases hx : st.at? p with
  | some x => rw [h p x hx]
  | none =>
    cases hy : st'.at? p with
    | none => rfl
    | some y =>
      obtain ⟨x, hx'⟩ := exists_at?_of_layout hlay.symm hy
      rw [hx] at hx'
      cases hx'

theorem at?_append (h : p.1 < st.length) (ts : Store α) : Store.at? (st ++ ts) p = st.at? p := by
  simp [at?, List.getElem?_append_left h]

theorem at?_take {m : Nat} (h : p.1 < m) : Store.at? (st.take m) p = st.at? p := by
  simp [at?, List.getElem?_take_of_lt h]

variable [Element α]

theorem at?_modifyAt_of_ne {q : Place} (h : q ≠ p) (f : α → α) :
    (st.modifyAt p f).at? q = st.at? q := by
  simp only [at?, modifyAt, List.getElem?_modify]
  by_cases h1 : p.1 = q.1
  · have h2 : q.2 ≠ p.2 := fun h2 => h (Prod.ext h1.symm h2)
    simp only [h1, if_true]
    cases st[q.1]? with
    | none => rfl
    | some t => simp [Tensor.modify, Array.getElem?_modify, h2.symm]
  · simp [h1]

/-- What a change leaves at its place, if there is an element: it is rounded to the type of the
tensor. -/
theorem at?_modifyAt (st : Store α) (p : Place) (f : α → α) :
    (st.modifyAt p f).at? p =
      (st.layout[p.1]?).bind fun s => (st.at? p).map fun x => Element.round s.ty (f x) := by
  simp only [at?, modifyAt, layout, List.getElem?_modify, List.getElem?_map, if_true]
  cases st[p.1]? with
  | none => rfl
  | some t => simp [Tensor.modify, Array.getElem?_modify, Tensor.slot]

theorem at?_modifyAt_self {ty : Scalar} {x : α} (hty : (st.layout[p.1]?).map (·.ty) = some ty)
    (hx : st.at? p = some x) (f : α → α) :
    (st.modifyAt p f).at? p = some (Element.round ty (f x)) := by
  obtain ⟨s, hs, rfl⟩ := Option.map_eq_some_iff.1 hty
  rw [at?_modifyAt, hs, hx]
  rfl

/-- What a change leaves at its place depends on what was there and on the type alone. -/
theorem at?_modifyAt_congr {f f' : α → α} (hlay : st.layout = st'.layout)
    (hat : st.at? p = st'.at? p) (hf : ∀ a, f a = f' a) :
    (st.modifyAt p f).at? p = (st'.modifyAt p f').at? p := by
  rw [at?_modifyAt, at?_modifyAt, hlay, hat, funext hf]

end Store

/-! ## What actions touch -/

/-- The places a resolved expression reads. -/
def Term.loads : Term → List Place
  | word _ | float _ => []
  | load p => [p]
  | binary _ l r => l.loads ++ r.loads
  | neg t => t.loads

/-- The places an action writes. -/
def Action.written : Action → List Place
  | store _ p _ => [p]
  | _ => []

/-- The places an action reads or writes. -/
def Action.touched : Action → List Place
  | store _ p t => p :: t.loads
  | _ => []

theorem Action.touched_of_written {a : Action} {p : Place} (h : p ∈ a.written) : p ∈ a.touched := by
  cases a <;> simp_all [written, touched]

/-- The places that actions write. -/
def written (acts : List Action) : List Place := acts.flatMap (·.written)

/-- The places that actions read or write. -/
def touched (acts : List Action) : List Place := acts.flatMap (·.touched)

@[simp] theorem written_append (acts acts' : List Action) :
    written (acts ++ acts') = written acts ++ written acts' := by simp [written]

@[simp] theorem touched_append (acts acts' : List Action) :
    touched (acts ++ acts') = touched acts ++ touched acts' := by simp [touched]

theorem touched_of_written {p : Place} (h : p ∈ written acts) : p ∈ touched acts := by
  obtain ⟨a, ha, hp⟩ := List.mem_flatMap.1 h
  exact List.mem_flatMap.2 ⟨a, ha, Action.touched_of_written hp⟩

section agree

variable {α : Type}

/-- The stores have the same layout, and the same elements where `S` holds. -/
structure Agree (S : Place → Prop) (st st' : Store α) : Prop where
  layout : st.layout = st'.layout
  at? : ∀ p, S p → st.at? p = st'.at? p

variable [Element α] {S : Place → Prop} {st st' : Store α}

theorem Term.eval_congr {t : Term} (h : ∀ p ∈ t.loads, st.at? p = st'.at? p) :
    t.eval st = t.eval st' := by
  induction t with
  | word n | float x => rfl
  | load p => simp only [Term.eval, h p (by simp [Term.loads])]
  | binary op l r ihl ihr =>
    have hl := ihl fun p hp => h p (by simp [Term.loads, hp])
    have hr := ihr fun p hp => h p (by simp [Term.loads, hp])
    simp only [Term.eval, hl, hr]
  | neg t ih => simp only [Term.eval, ih h]

/-- Stores that agree on what an action touches still do so after it. -/
theorem Agree.performAction (h : Agree S st st') {a : Action} (ha : ∀ p ∈ a.touched, S p) :
    Agree S (a.perform st) (a.perform st') := by
  have hlen : st.length = st'.length := by
    rw [← Store.length_layout, h.layout, Store.length_layout]
  refine ⟨by rw [layout_performAction, layout_performAction, h.layout], fun q hq => ?_⟩
  cases a with
  | store u p t =>
    have ht : t.eval st = t.eval st' :=
      Term.eval_congr fun q hq => h.at? q (ha q (.tail _ hq))
    have hp : st.at? p = st'.at? p := h.at? p (ha p (.head _))
    by_cases hqp : q = p
    · subst hqp
      cases u <;> exact Store.at?_modifyAt_congr h.layout hp fun a => by simp only [ht]
    · cases u <;>
      · simp only [Action.perform]
        rw [Store.at?_modifyAt_of_ne hqp, Store.at?_modifyAt_of_ne hqp, h.at? q hq]
  | alloc ty shape size =>
    simp only [Action.perform]
    by_cases hlt : q.1 < st.length
    · rw [Store.at?_append hlt, Store.at?_append (hlen ▸ hlt), h.at? q hq]
    · have hge : st.length ≤ q.1 := Nat.le_of_not_lt hlt
      simp [Store.at?, List.getElem?_append_right hge, List.getElem?_append_right (hlen ▸ hge), hlen]
  | release m =>
    simp only [Action.perform]
    by_cases hlt : q.1 < m
    · rw [Store.at?_take hlt, Store.at?_take hlt, h.at? q hq]
    · rw [Store.at?_eq_none (by simp; omega), Store.at?_eq_none (by simp; omega)]

theorem Agree.perform (h : Agree S st st') (hacts : ∀ p ∈ touched acts, S p) :
    Agree S (perform acts st) (perform acts st') := by
  induction acts generalizing st st' with
  | nil => exact h
  | cons a acts ih =>
    refine ih (h.performAction fun p hp => hacts p ?_) fun p hp => hacts p ?_
    · exact List.mem_append_left _ hp
    · exact List.mem_append_right _ hp

/-- Elements of old tensors that are not written stay as they are. -/
theorem at?_perform_of_not_written {n : Nat} {p : Place} (hp : p.1 < n) (hn : n ≤ st.length)
    (hmarks : ∀ m, Action.release m ∈ acts → n ≤ m) (hw : p ∉ written acts) :
    Store.at? (LoopNest.perform acts st) p = st.at? p := by
  induction acts generalizing st with
  | nil => rfl
  | cons a acts ih =>
    have hrest : p ∉ written acts := fun h => hw (List.mem_append_right _ h)
    have hfirst : p ∉ a.written := fun h => hw (List.mem_append_left _ h)
    have hmarks' : ∀ m, Action.release m ∈ acts → n ≤ m :=
      fun m hm => hmarks m (.tail _ hm)
    rw [perform_cons]
    cases a with
    | store u q t =>
      have hne : p ≠ q := fun h => hfirst (by simp [Action.written, h])
      cases u <;>
      · simp only [Action.perform]
        rw [ih (by simpa [Store.modifyAt] using hn) hmarks' hrest, Store.at?_modifyAt_of_ne hne]
    | alloc ty shape size =>
      simp only [Action.perform]
      rw [ih (by simp; omega) hmarks' hrest, Store.at?_append (by omega)]
    | release m =>
      have hm : n ≤ m := hmarks m (.head _)
      simp only [Action.perform]
      rw [ih (by simp; omega) hmarks' hrest, Store.at?_take (by omega)]

end agree

/-! ## Lists of actions that do the same -/

/-- The lists do the same to every store of the layout, in the arithmetic of `α`. -/
def EquivIn (α : Type) [Element α] (lay : Layout) (acts acts' : List Action) : Prop :=
  lay.after acts = lay.after acts' ∧
    ∀ st : Store α, st.layout = lay → perform acts st = perform acts' st

namespace EquivIn

variable {α : Type} [Element α] {lay : Layout} {a a' b b' d : List Action}

theorem refl (lay : Layout) (a : List Action) : EquivIn α lay a a := ⟨rfl, fun _ _ => rfl⟩

theorem symm (h : EquivIn α lay a b) : EquivIn α lay b a :=
  ⟨h.1.symm, fun st hst => (h.2 st hst).symm⟩

theorem trans (h : EquivIn α lay a b) (h' : EquivIn α lay b d) : EquivIn α lay a d :=
  ⟨h.1.trans h'.1, fun st hst => (h.2 st hst).trans (h'.2 st hst)⟩

theorem append (h : EquivIn α lay a a') (h' : EquivIn α (lay.after a) b b') :
    EquivIn α lay (a ++ b) (a' ++ b') := by
  refine ⟨by rw [Layout.after_append, Layout.after_append, ← h.1, h'.1], fun st hst => ?_⟩
  rw [perform_append, perform_append, ← h.2 st hst]
  exact h'.2 _ (by rw [layout_perform, hst])

theorem scope (h : EquivIn α lay a a') : EquivIn α lay (scope lay a) (scope lay a') :=
  h.append (refl _ _)

theorem flatMap {ι : Type} {l : List ι} {g g' : ι → List Action}
    (hclosed : ∀ k ∈ l, Closes lay (g k)) (h : ∀ k ∈ l, EquivIn α lay (g k) (g' k)) :
    EquivIn α lay (l.flatMap g) (l.flatMap g') := by
  induction l with
  | nil => exact refl _ _
  | cons k l ih =>
    have hrest := ih (fun j hj => hclosed j (.tail _ hj))
      fun j hj => h j (.tail _ hj)
    refine (h k (.head _)).append ?_
    rwa [(hclosed k (.head _)).after]

end EquivIn

/-- The lists do the same to every store of the layout, whatever its elements are and whatever the
arithmetic is. -/
def Equiv (lay : Layout) (acts acts' : List Action) : Prop :=
  lay.after acts = lay.after acts' ∧
    ∀ (α : Type) [Element α] (st : Store α), st.layout = lay → perform acts st = perform acts' st

/-- Neither list writes an old place that the other one touches. -/
def Apart (lay : Layout) (acts acts' : List Action) : Prop :=
  ∀ p : Place, p.1 < lay.length →
    (p ∈ written acts → p ∉ touched acts') ∧ (p ∈ written acts' → p ∉ touched acts)

namespace Equiv

variable {lay : Layout} {a a' b b' d : List Action}

theorem toIn (h : Equiv lay a b) (α : Type) [Element α] : EquivIn α lay a b := ⟨h.1, h.2 α⟩

theorem of_forall (h : ∀ (α : Type) [Element α], EquivIn α lay a b) : Equiv lay a b :=
  ⟨(h Float).1, fun α _ => (h α).2⟩

theorem refl (lay : Layout) (a : List Action) : Equiv lay a a := of_forall fun _ _ => .refl lay a

theorem symm (h : Equiv lay a b) : Equiv lay b a := of_forall fun α _ => (h.toIn α).symm

theorem trans (h : Equiv lay a b) (h' : Equiv lay b d) : Equiv lay a d :=
  of_forall fun α _ => (h.toIn α).trans (h'.toIn α)

theorem append (h : Equiv lay a a') (h' : Equiv (lay.after a) b b') :
    Equiv lay (a ++ b) (a' ++ b') :=
  of_forall fun α _ => (h.toIn α).append (h'.toIn α)

/-- For lists that leave the layout as it was. -/
theorem append_closes (ha : Closes lay a) (h : Equiv lay a a') (h' : Equiv lay b b') :
    Equiv lay (a ++ b) (a' ++ b') :=
  h.append (by rwa [ha.after])

theorem scope (h : Equiv lay a a') : Equiv lay (scope lay a) (scope lay a') :=
  h.append (refl _ _)

/-- A scope around actions that leave nothing behind does nothing. -/
theorem scope_of_closes (h : Closes lay a) : Equiv lay (LoopNest.scope lay a) a := by
  refine ⟨by simp [LoopNest.scope, h.after, Action.relayout], fun α _ st hst => ?_⟩
  have hlen : (perform a st).length = lay.length := by
    rw [← Store.length_layout, layout_perform, hst, h.after]
  simp [LoopNest.scope, Action.perform, ← hlen]

theorem flatMap {ι : Type} {l : List ι} {g g' : ι → List Action}
    (hclosed : ∀ k ∈ l, Closes lay (g k)) (h : ∀ k ∈ l, Equiv lay (g k) (g' k)) :
    Equiv lay (l.flatMap g) (l.flatMap g') :=
  of_forall fun α _ => .flatMap hclosed fun k hk => (h k hk).toIn α

/-- **Lists that are apart commute.** An element that the first list writes is not touched by the
second one, and the first list computes it from elements that the second one does not write. -/
theorem swap (ha : Closes lay a) (hb : Closes lay b) (h : Apart lay a b) :
    Equiv lay (a ++ b) (b ++ a) := by
  refine ⟨by rw [Layout.after_append, Layout.after_append, ha.after, hb.after, ha.after], ?_⟩
  intro α _ st hst
  rw [perform_append, perform_append]
  have hlaya : Store.layout (perform a st) = lay := by rw [layout_perform, hst, ha.after]
  have hlayb : Store.layout (perform b st) = lay := by rw [layout_perform, hst, hb.after]
  have hlen : ∀ s : Store α, s.layout = lay → s.length = lay.length := fun s hs => by
    rw [← hs, Store.length_layout]
  -- what one list touches is the same before and after the other one
  have hagree : ∀ {x y : List Action}, Closes lay x →
      (∀ p : Place, p.1 < lay.length → p ∈ touched y → p ∉ written x) →
        Agree (· ∈ touched y) st (perform x st) := by
    intro x y hx hxy
    have hlayx : Store.layout (perform x st) = lay := by rw [layout_perform, hst, hx.after]
    refine ⟨by rw [hst, hlayx], fun p hp => ?_⟩
    by_cases hlt : p.1 < lay.length
    · exact (at?_perform_of_not_written hlt (Nat.le_of_eq (hlen st hst).symm) hx.marks (hxy p hlt hp)).symm
    · rw [Store.at?_eq_none (by rw [hlen st hst]; omega),
        Store.at?_eq_none (by rw [hlen _ hlayx]; omega)]
  have hforA := (hagree (y := a) hb fun p hp hta hwb => (h p hp).2 hwb hta).perform fun p hp => hp
  have hforB := (hagree (y := b) ha fun p hp htb hwa => (h p hp).1 hwa htb).perform fun p hp => hp
  apply Store.ext_at
  · rw [layout_perform, hlaya, hb.after, layout_perform, hlayb, ha.after]
  intro p
  by_cases hlt : p.1 < lay.length
  · have hkeep : ∀ {x : List Action} {s : Store α}, Closes lay x → s.layout = lay →
        p ∉ written x → Store.at? (perform x s) p = s.at? p := fun hx hs hw =>
      at?_perform_of_not_written hlt (Nat.le_of_eq (hlen _ hs).symm) hx.marks hw
    by_cases hwa : p ∈ written a
    · have hnb : p ∉ written b := fun hwb => (h p hlt).1 hwa (touched_of_written hwb)
      rw [hkeep hb hlaya hnb]
      exact hforA.at? p (touched_of_written hwa)
    · rw [hkeep ha hlayb hwa]
      by_cases hwb : p ∈ written b
      · exact (hforB.at? p (touched_of_written hwb)).symm
      · rw [hkeep hb hlaya hwb, hkeep ha hst hwa, hkeep hb hst hwb]
  · rw [Store.at?_eq_none (by rw [hlen _ (by rw [layout_perform, hlaya, hb.after])]; omega),
      Store.at?_eq_none (by rw [hlen _ (by rw [layout_perform, hlayb, ha.after])]; omega)]

end Equiv

namespace Apart

variable {lay : Layout} {a b : List Action} {ι : Type} {l : List ι} {g : ι → List Action}

theorem nil (lay : Layout) (a : List Action) : Apart lay a [] := fun _ _ => by
  simp [written, touched]

theorem append_right {d : List Action} (h : Apart lay a b) (h' : Apart lay a d) :
    Apart lay a (b ++ d) := by
  intro p hp
  simp only [touched_append, written_append, List.mem_append]
  exact ⟨fun hw ht => ht.elim ((h p hp).1 hw) ((h' p hp).1 hw),
    fun hw ht => hw.elim (fun hw => (h p hp).2 hw ht) fun hw => (h' p hp).2 hw ht⟩

theorem symm (h : Apart lay a b) : Apart lay b a := fun p hp => (h p hp).symm

theorem scope (h : Apart lay a b) (mark mark' : Layout) :
    Apart lay (scope mark a) (scope mark' b) := by
  have hright : ∀ {a b : List Action} {mark : Layout}, Apart lay a b →
      Apart lay a (LoopNest.scope mark b) := fun h =>
    h.append_right fun _ _ => by simp [written, touched, Action.written, Action.touched]
  exact (hright (hright h).symm).symm

theorem flatMap_right (h : ∀ k ∈ l, Apart lay a (g k)) : Apart lay a (l.flatMap g) := by
  induction l with
  | nil => exact nil lay a
  | cons k l ih =>
    exact (h k (.head _)).append_right (ih fun j hj => h j (.tail _ hj))

theorem flatMap_left (h : ∀ k ∈ l, Apart lay (g k) b) : Apart lay (l.flatMap g) b :=
  (flatMap_right fun k hk => (h k hk).symm).symm

end Apart

/-! ## Rearranging rounds -/

namespace Equiv

variable {lay : Layout} {ι κ : Type}

/-- **All first halves before all second halves.** The second half of a round has to be apart from
the first halves of later rounds. -/
theorem distribute {l : List ι} {f g : ι → List Action} (hf : ∀ k ∈ l, Closes lay (f k))
    (hg : ∀ k ∈ l, Closes lay (g k)) (h : l.Pairwise fun j k => Apart lay (g j) (f k)) :
    Equiv lay (l.flatMap fun k => f k ++ g k) (l.flatMap f ++ l.flatMap g) := by
  induction l with
  | nil => exact refl _ _
  | cons k l ih =>
    obtain ⟨hk, hl⟩ := List.pairwise_cons.1 h
    have hfk := hf k (.head _)
    have hgk := hg k (.head _)
    have hfl : Closes lay (l.flatMap f) := .flatMap fun j hj => hf j (.tail _ hj)
    have hrest := ih (fun j hj => hf j (.tail _ hj))
      (fun j hj => hg j (.tail _ hj)) hl
    have hswap : Equiv lay (g k ++ l.flatMap f) (l.flatMap f ++ g k) :=
      swap hgk hfl (Apart.flatMap_right hk)
    have hmove : Equiv lay (f k ++ (g k ++ (l.flatMap f ++ l.flatMap g)))
        (f k ++ ((l.flatMap f ++ g k) ++ l.flatMap g)) := by
      refine append_closes hfk (refl _ _) ?_
      rw [← List.append_assoc]
      exact append_closes (hgk.append hfl) hswap (refl _ _)
    simp only [List.flatMap_cons, List.append_assoc] at hmove ⊢
    exact (append_closes hfk (refl _ _) (append_closes hgk (refl _ _) hrest)).trans hmove

/-- **Nested iterations may be exchanged** when rounds whose order changes are apart. -/
theorem interchange {l : List ι} {m : List κ} {f : ι → κ → List Action}
    (hf : ∀ k ∈ l, ∀ j ∈ m, Closes lay (f k j))
    (h : l.Pairwise fun k k' => m.Pairwise fun j j' => Apart lay (f k j') (f k' j)) :
    Equiv lay (l.flatMap fun k => m.flatMap (f k)) (m.flatMap fun j => l.flatMap (f · j)) := by
  induction m with
  | nil =>
    simp only [List.flatMap_nil]
    have hnil : (l.flatMap fun _ => ([] : List Action)) = [] := by simp
    rw [hnil]
    exact refl _ _
  | cons j m ih =>
    simp only [List.flatMap_cons]
    have hj : ∀ k ∈ l, Closes lay (f k j) := fun k hk => hf k hk j (.head _)
    have hm : ∀ k ∈ l, ∀ i ∈ m, Closes lay (f k i) :=
      fun k hk i hi => hf k hk i (.tail _ hi)
    have hsplit := distribute (f := (f · j)) (g := fun k => m.flatMap (f k)) hj
      (fun k hk => .flatMap (hm k hk))
      (h.imp fun hkk => Apart.flatMap_left fun i hi => (List.pairwise_cons.1 hkk).1 i hi)
    refine hsplit.trans (append_closes (.flatMap hj) (refl _ _) ?_)
    exact ih hm (h.imp fun hkk => (List.pairwise_cons.1 hkk).2)

end Equiv

end LoopNest
