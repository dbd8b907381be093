import HotLoop.Proofs.Path

namespace HotLoop

namespace Machine

structure Separate (m : Machine) : Prop where
  active : m.frames ≠ []
  distinct : m.frames.Pairwise fun f g => f.serial ≠ g.serial
  numbered : ∀ f ∈ m.frames, f.serial < m.made

structure Above (base m : Machine) (pushed : List Frame) : Prop where
  frames : m.frames = pushed ++ base.frames
  fresh : ∀ f ∈ pushed, base.made ≤ f.serial
  made : base.made ≤ m.made

structure Lost (serial : Nat) (m : Machine) : Prop where
  made : serial < m.made
  gone : ∀ f ∈ m.frames, f.serial ≠ serial

theorem Separate.top?_of_isTop {m : Machine} {f : Frame} (h : m.Separate) (hf : f ∈ m.frames)
    (ht : Walk.isTop f m = true) : m.top? = some f := by
  have hdistinct := h.distinct
  unfold Walk.isTop at ht
  unfold Machine.top? at ht ⊢
  cases hfr : m.frames with
  | nil => simp [hfr] at hf
  | cons g rest =>
    rw [hfr, List.pairwise_cons] at hdistinct
    simp only [hfr, List.head?_cons, Option.map_some, Option.some.injEq, decide_eq_true_eq] at ht
    rcases List.mem_cons.mp (hfr ▸ hf) with rfl | hmem
    · rfl
    · exact absurd ht (hdistinct.1 f hmem)

theorem Above.refl (m : Machine) : Above m m [] := ⟨rfl, by simp, Nat.le_refl _⟩

theorem Above.same {base m m' : Machine} {pushed : List Frame} (h : Above base m pushed)
    (frames : m'.frames = m.frames) (made : m'.made = m.made) : Above base m' pushed :=
  ⟨frames.trans h.frames, h.fresh, made ▸ h.made⟩

theorem Above.push {base m m' : Machine} {pushed : List Frame} {f : Frame} (h : Above base m pushed)
    (serial : f.serial = m.made) (frames : m'.frames = f :: m.frames) (made : m'.made = m.made + 1) :
    Above base m' (f :: pushed) := by
  have hm := h.made
  refine ⟨by rw [frames, h.frames, List.cons_append], ?_, by omega⟩
  intro g hg
  rcases List.mem_cons.mp hg with rfl | hg
  · omega
  · exact h.fresh g hg

theorem Above.pop {base m m' : Machine} {pushed : List Frame} {f : Frame} (h : Above base m (f :: pushed))
    (frames : m'.frames = pushed ++ base.frames) (made : m'.made = m.made) : Above base m' pushed :=
  ⟨frames, fun g hg => h.fresh g (by simp [hg]), made ▸ h.made⟩

theorem Above.top? {base m : Machine} {pushed : List Frame} (h : Above base m pushed) (hb : base.Separate) :
    ∃ f, m.top? = some f := by
  have hne : m.frames ≠ [] := by
    rw [h.frames]
    exact List.append_ne_nil_of_right_ne_nil _ hb.active
  exact ⟨m.frames.head hne, List.head?_eq_some_head hne⟩

theorem Above.isTop_iff {base m : Machine} {pushed : List Frame} {home : Frame} (h : Above base m pushed)
    (hb : base.Separate) (hhome : base.top? = some home) : Walk.isTop home m = true ↔ pushed = [] := by
  have hmem : home ∈ base.frames := List.mem_of_head? hhome
  have hlt := hb.numbered home hmem
  unfold Walk.isTop Machine.top?
  rw [h.frames]
  cases pushed with
  | nil =>
    have : base.frames.head? = some home := hhome
    simp [this]
  | cons f rest =>
    have := h.fresh f (by simp)
    simp only [List.cons_append, List.head?_cons, Option.map_some, decide_eq_true_eq, Option.some.injEq,
      reduceCtorEq, iff_false]
    omega

theorem Lost.not_isTop {m : Machine} {home : Frame} (h : Lost home.serial m) : Walk.isTop home m = false := by
  unfold Walk.isTop Machine.top?
  cases hf : m.frames with
  | nil => simp
  | cons f rest =>
    have := h.gone f (by simp [hf])
    simpa using this

end Machine

namespace Exec.Flow

open Machine

variable {i : Instr} {pos : Position} {base m m' : Machine} {t : Transfer}

theorem lost (h : Flow i pos m m' t) {serial : Nat} (hl : Lost serial m) : Lost serial m' := by
  cases h with
  | next _ frames made => exact ⟨made ▸ hl.made, frames ▸ hl.gone⟩
  | jump _ frames made => exact ⟨made ▸ hl.made, frames ▸ hl.gone⟩
  | enter _ f hs hb frames made =>
    refine ⟨by have := hl.made; omega, ?_⟩
    rw [frames]
    intro g hg
    rcases List.mem_cons.mp hg with rfl | hg
    · have := hl.made
      omega
    · exact hl.gone g hg
  | leave f rest target hb popped frames made | stop f rest hb popped frames made =>
    refine ⟨made ▸ hl.made, ?_⟩
    rw [frames]
    intro g hg
    exact hl.gone g (by simp [popped, hg])

theorem above (h : Flow i pos m m' t) {pushed : List Frame} (ha : Above base m pushed) (hb : base.Separate)
    {home : Frame} (hhome : base.top? = some home) :
    (∃ pushed', Above base m' pushed') ∨ Lost home.serial m' := by
  cases h with
  | next _ frames made | jump _ frames made => exact .inl ⟨pushed, ha.same frames made⟩
  | enter _ f hs _ frames made => exact .inl ⟨f :: pushed, ha.push hs frames made⟩
  | leave f rest target _ popped frames made | stop f rest _ popped frames made =>
    have hpop := popped.symm.trans ha.frames
    cases pushed with
    | cons g pushed =>
      obtain ⟨rfl, hr⟩ := List.cons.inj hpop
      exact .inl ⟨pushed, ha.pop (frames.trans hr) made⟩
    | nil =>
      have hbase : base.frames = f :: rest := hpop.symm
      have hf : f = home := by
        have : base.frames.head? = some home := hhome
        simpa [hbase] using this
      have hdistinct := hb.distinct
      have hnumbered := hb.numbered f (by simp [hbase])
      have hm := ha.made
      rw [hbase, List.pairwise_cons] at hdistinct
      refine .inr ⟨by rw [← hf]; omega, ?_⟩
      rw [frames, ← hf]
      exact fun g hg => (hdistinct.1 g hg).symm

theorem made_le (h : Flow i pos m m' t) : m.made ≤ m'.made := by
  cases h <;> omega

theorem separate (h : Flow i pos m m' t) (hm : m.Separate) (active : m'.frames ≠ []) : m'.Separate := by
  cases h with
  | next _ frames made | jump _ frames made =>
    exact ⟨active, frames ▸ hm.distinct, by simpa [frames, made] using hm.numbered⟩
  | enter _ f hs _ frames made =>
    refine ⟨active, ?_, ?_⟩
    · rw [frames, List.pairwise_cons]
      refine ⟨fun g hg => ?_, hm.distinct⟩
      have := hm.numbered g hg
      omega
    · rw [frames, made, List.forall_mem_cons]
      exact ⟨by omega, fun g hg => Nat.lt_succ_of_lt (hm.numbered g hg)⟩
  | leave f rest _ _ popped frames made | stop f rest _ popped frames made =>
    have hdistinct := hm.distinct
    have hnumbered := hm.numbered
    rw [popped, List.pairwise_cons] at hdistinct
    rw [popped, List.forall_mem_cons] at hnumbered
    exact ⟨active, frames ▸ hdistinct.2, by rw [frames, made]; exact hnumbered.2⟩

theorem root?_eq (h : Flow i pos m m' t) {root : Frame} (hroot : m.root? = some root) (hback : root.back = none)
    (ht : t ≠ .stop) : m'.root? = some root := by
  unfold Machine.root? at hroot ⊢
  cases h with
  | next _ frames made | jump _ frames made => rw [frames, hroot]
  | enter _ f _ _ frames made => rw [frames, List.getLast?_cons, hroot, Option.getD_some]
  | leave f rest target hb popped frames made =>
    rw [frames]
    rw [popped] at hroot
    cases rest with
    | nil =>
      obtain rfl : f = root := by simpa using hroot
      cases hback.symm.trans hb
    | cons g rest => exact hroot
  | stop => exact absurd rfl ht

end Exec.Flow

namespace Path

open Machine

variable {prog : Program} {pos pos' : Position} {base m m' : Machine} {vs : List Move}

theorem lost (h : Path prog pos m vs pos' m') {serial : Nat} (hl : Lost serial m) : Lost serial m' := by
  induction h with
  | nil => exact hl
  | cons first _ _ ih => exact ih (first.flow.lost hl)

theorem above (h : Path prog pos m vs pos' m') {pushed : List Frame} (ha : Above base m pushed)
    (hb : base.Separate) {home : Frame} (hhome : base.top? = some home) (htop : Walk.isTop home m' = true) :
    ∀ v ∈ vs, ∃ pushed, Above base v.machine pushed := by
  induction h generalizing pushed with
  | nil => simp
  | cons first _ rest ih =>
    rcases first.flow.above ha hb hhome with ⟨pushed', ha'⟩ | hl
    · exact List.forall_mem_cons.mpr ⟨⟨pushed', ha'⟩, ih ha' htop⟩
    · have := (rest.lost hl).not_isTop
      simp [htop] at this

end Path

end HotLoop
