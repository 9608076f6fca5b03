import MarkovDecision.Proofs.Process.Choice

/-!
# Discounted rewards of a process

Every state pays a reward, and what is paid a step later counts for less by a
factor below one (`Payoff`). The value of a chain is then a solution of one linear
equation for every state, and the value of a process that of the equations with the
best offer in place of the only one; both exist, are rational, and are unique.

One comparison does all the work (`Payoff.sub_le`). A function that is *almost* below
what some offer makes of it, by `a`, exceeds a function that is almost above what
every offer makes of it, by `b`, by no more than `(a + b) / (1 - γ)`: look at the state
where the difference is largest, and follow the offer from there. With both errors
zero it gives uniqueness (`Payoff.Sweep.unique`) and that a better offer raises the value;
with one of them the accuracy of an approximation (`Payoff.Sweep.abs_sub_fixed_le`) and the loss
of the policy that is read off it (`Payoff.Sweep.sub_worth_le`).

Sweeps are a relation and not a function, so that whatever computes a maximum is a
sweep as soon as it is above all offers and attained by one.
-/

namespace MarkovDecision

open Finset

/-- What the states pay, and by how much less a payment counts a step later. -/
structure Payoff (S : Type) where
  /-- The reward of a state. -/
  reward : S → ℚ
  /-- The discount for every step. -/
  discount : ℚ
  /-- Payments do not change their sign. -/
  discount_nonneg : 0 ≤ discount
  /-- Later payments count for less. -/
  discount_lt_one : discount < 1

namespace Payoff

theorem one_sub_discount_pos {S : Type} (u : Payoff S) : 0 < 1 - u.discount :=
  sub_pos.mpr u.discount_lt_one

open Filter Topology in
/-- What shrinks with the powers of the discount tends to zero. -/
theorem tendsto_discount_pow_mul {S : Type} (u : Payoff S) (M : ℚ) :
    Tendsto (fun n => u.discount ^ n * M) atTop (𝓝 0) := by
  have h := (tendsto_pow_atTop_nhds_zero_of_lt_one u.discount_nonneg u.discount_lt_one).mul_const M
  rwa [zero_mul] at h

variable {S : Type} [Fintype S] (u : Payoff S) {p : Process S} {c : Chain S}
  {v v' w w' f g : S → ℚ}

/-- The reward of a state and the discounted average of what follows. -/
def backup (s : S) (d : Distribution S) (v : S → ℚ) : ℚ := u.reward s + u.discount * d.mean v

/-- Values that differ by `M` at most make a difference of at most the discounted `M`. -/
theorem backup_sub_le {M : ℚ} (h : ∀ t, v t - w t ≤ M) (s : S) (d : Distribution S) :
    u.backup s d v - u.backup s d w ≤ u.discount * M := by
  calc u.backup s d v - u.backup s d w = u.discount * d.mean (fun t => v t - w t) := by
        rw [backup, backup, d.mean_sub]
        ring
    _ ≤ u.discount * d.mean (fun _ => M) :=
        mul_le_mul_of_nonneg_left (d.mean_mono h) u.discount_nonneg
    _ = u.discount * M := by rw [d.mean_const]

theorem backup_mono (h : ∀ t, v t ≤ w t) (s : S) (d : Distribution S) :
    u.backup s d v ≤ u.backup s d w := by
  have hle := u.backup_sub_le (fun t => sub_nonpos.mpr (h t)) s d
  rw [mul_zero] at hle
  exact sub_nonpos.mp hle

/-- **Comparison**: what is below some offer up to `a` exceeds what is above every offer up to `b`
by a limited amount. -/
theorem sub_le {a b : ℚ} (hf : ∀ s, ∃ d ∈ p.options s, f s ≤ u.backup s d f + a)
    (hg : ∀ s, ∀ d ∈ p.options s, u.backup s d g ≤ g s + b) (s : S) :
    f s - g s ≤ (a + b) / (1 - u.discount) := by
  -- the state where the difference is largest
  obtain ⟨top, -, htop⟩ := exists_max_image univ (fun t => f t - g t) ⟨s, mem_univ s⟩
  have hle : ∀ t, f t - g t ≤ f top - g top := fun t => htop t (mem_univ t)
  obtain ⟨d, hd, hfd⟩ := hf top
  have hstep := u.backup_sub_le hle top d
  have hgd := hg top d hd
  rw [le_div_iff₀ u.one_sub_discount_pos]
  have hs := mul_le_mul_of_nonneg_right (hle s) u.one_sub_discount_pos.le
  linarith

/-- The comparison without errors. -/
theorem le_of_backup (hf : ∀ s, ∃ d ∈ p.options s, f s ≤ u.backup s d f)
    (hg : ∀ s, ∀ d ∈ p.options s, u.backup s d g ≤ g s) (s : S) : f s ≤ g s := by
  have hsub := u.sub_le (a := 0) (b := 0)
    (fun t => (hf t).imp fun d hd => ⟨hd.1, hd.2.trans_eq (add_zero _).symm⟩)
    (fun t d hd => (hg t d hd).trans_eq (add_zero _).symm) s
  rw [add_zero, zero_div] at hsub
  exact sub_nonpos.mp hsub

/-! ### The worth of a chain -/

/-- What a function lacks to be worth itself, as a linear map. -/
def shortfall (c : Chain S) : (S → ℚ) →ₗ[ℚ] S → ℚ where
  toFun f s := f s - u.discount * (c s).mean f
  map_add' f g := by
    funext s
    simp only [Pi.add_apply, Distribution.mean, mul_add, sum_add_distrib]
    ring
  map_smul' q f := by
    funext s
    simp only [Pi.smul_apply, smul_eq_mul, Distribution.mean, RingHom.id_apply,
      mul_left_comm _ q, ← mul_sum]
    ring

/-- The comparison for a chain. -/
theorem le_of_chain (hf : ∀ s, f s ≤ u.backup s (c s) f) (hg : ∀ s, u.backup s (c s) g ≤ g s)
    (s : S) : f s ≤ g s := by
  refine u.le_of_backup (p := c.process) (fun t => ⟨c t, mem_singleton_self _, hf t⟩)
    (fun t d hd => ?_) s
  obtain rfl := mem_singleton.mp hd
  exact hg t

theorem shortfall_injective (c : Chain S) : Function.Injective (u.shortfall c) := by
  intro f g hfg
  -- add the reward that makes one of them worth itself, and so the other
  let r : Payoff S := { u with reward := u.shortfall c f }
  have hf : ∀ s, f s = r.backup s (c s) f := fun s => (sub_add_cancel (f s) _).symm
  have hg : ∀ s, g s = r.backup s (c s) g := fun s => by
    have hs : u.shortfall c f s = u.shortfall c g s := congrFun hfg s
    exact (sub_add_cancel (g s) _).symm.trans (congrArg (· + _) hs.symm)
  funext s
  exact le_antisymm (r.le_of_chain (fun t => (hf t).le) (fun t => (hg t).ge) s)
    (r.le_of_chain (fun t => (hg t).le) (fun t => (hf t).ge) s)

theorem exists_worth (c : Chain S) : ∃ v : S → ℚ, ∀ s, v s = u.backup s (c s) v := by
  -- as many equations as unknowns, so uniqueness gives existence
  obtain ⟨v, hv⟩ := LinearMap.injective_iff_surjective.mp (u.shortfall_injective c) u.reward
  exact ⟨v, fun s => sub_eq_iff_eq_add.mp (congrFun hv s)⟩

/-- **The discounted reward of following a chain for ever.** -/
noncomputable def worth (c : Chain S) : S → ℚ := (u.exists_worth c).choose

theorem worth_eq (c : Chain S) (s : S) : u.worth c s = u.backup s (c s) (u.worth c) :=
  (u.exists_worth c).choose_spec s

/-- **Nothing else is worth itself** than the worth of a chain. -/
theorem eq_worth (hv : ∀ s, v s = u.backup s (c s) v) : v = u.worth c := by
  funext s
  exact le_antisymm (u.le_of_chain (fun t => (hv t).le) (fun t => (u.worth_eq c t).ge) s)
    (u.le_of_chain (fun t => (u.worth_eq c t).le) (fun t => (hv t).ge) s)

/-- **A chain is worth at most its largest reward for ever.** -/
theorem abs_worth_le {R : ℚ} (hR : ∀ t, |u.reward t| ≤ R) (s : S) :
    |u.worth c s| ≤ R / (1 - u.discount) := by
  -- nothing at all, compared with the worth from both sides
  have hnothing : ∀ t, u.backup t (c t) (fun _ => 0) = u.reward t := by
    intro t
    rw [backup, (c t).mean_const, mul_zero, add_zero]
  have hupper := u.sub_le (p := c.process) (f := u.worth c) (g := fun _ => 0) (a := 0) (b := R)
    (fun t => ⟨c t, mem_singleton_self _, by rw [add_zero, ← u.worth_eq c t]⟩)
    (fun t d hd => by
      obtain rfl := mem_singleton.mp hd
      rw [hnothing, zero_add]
      exact (abs_le.mp (hR t)).2) s
  have hlower := u.sub_le (p := c.process) (f := fun _ => 0) (g := u.worth c) (a := R) (b := 0)
    (fun t => ⟨c t, mem_singleton_self _, by
      rw [hnothing]
      linarith [(abs_le.mp (hR t)).1]⟩)
    (fun t d hd => by
      obtain rfl := mem_singleton.mp hd
      rw [add_zero, ← u.worth_eq c t]) s
  rw [zero_add, sub_zero] at hupper
  rw [add_zero, zero_sub] at hlower
  exact abs_le.mpr ⟨by linarith, hupper⟩

/-- The discounted reward that a number of steps is expected to pay. -/
def accrued (c : Chain S) : ℕ → S → ℚ
  | 0 => fun _ => 0
  | n + 1 => fun s => u.backup s (c s) (accrued c n)

/-- **Later payments matter less and less.** -/
theorem abs_accrued_sub_worth_le {M : ℚ} (hM : ∀ t, |u.worth c t| ≤ M) (n : ℕ) (s : S) :
    |u.accrued c n s - u.worth c s| ≤ u.discount ^ n * M := by
  induction n generalizing s with
  | zero =>
    rw [accrued, zero_sub, abs_neg, pow_zero, one_mul]
    exact hM s
  | succ n ih =>
    rw [accrued, u.worth_eq c s, pow_succ', mul_assoc, abs_sub_le_iff]
    exact ⟨u.backup_sub_le (fun t => (abs_sub_le_iff.mp (ih t)).1) s (c s),
      u.backup_sub_le (fun t => (abs_sub_le_iff.mp (ih t)).2) s (c s)⟩

/-- Finitely many values have a common bound. -/
theorem exists_abs_le (v : S → ℚ) : ∃ M : ℚ, ∀ s, |v s| ≤ M :=
  ⟨∑ t, |v t|, fun s => single_le_sum (fun t _ => abs_nonneg (v t)) (mem_univ s)⟩

open Filter Topology in
/-- **The worth of a chain is the limit of what it pays in a number of steps.** -/
theorem tendsto_accrued (c : Chain S) (s : S) :
    Tendsto (fun n => u.accrued c n s) atTop (𝓝 (u.worth c s)) := by
  obtain ⟨M, hM⟩ := exists_abs_le (u.worth c)
  have hgap := u.tendsto_discount_pow_mul M
  have hlow := hgap.const_sub (u.worth c s)
  have hhigh := hgap.const_add (u.worth c s)
  rw [sub_zero] at hlow
  rw [add_zero] at hhigh
  refine tendsto_of_tendsto_of_tendsto_of_le_of_le hlow hhigh (fun n => ?_) (fun n => ?_)
  · exact sub_le_of_abs_sub_le_left (u.abs_accrued_sub_worth_le hM n s)
  · exact sub_le_iff_le_add'.mp (le_of_abs_le (u.abs_accrued_sub_worth_le hM n s))

/-! ### Sweeps -/

/-- The second values are what the best offer makes of the first. -/
structure Sweep (p : Process S) (v w : S → ℚ) : Prop where
  /-- No offer makes more. -/
  le : ∀ s, ∀ d ∈ p.options s, u.backup s d v ≤ w s
  /-- Some offer makes as much. -/
  attained : ∀ s, ∃ d ∈ p.options s, w s = u.backup s d v

/-- **Values that a sweep keeps**, the value of a chain whose sum of values is largest: a better
offer would raise it. -/
theorem exists_sweep_self [DecidableEq S] (p : Process S) : ∃ v, u.Sweep p v v := by
  obtain ⟨(c : Chain S), hc, hmax⟩ := exists_max_image (Fintype.piFinset p.options)
    (fun c : Chain S => ∑ s, u.worth c s) (Fintype.piFinset_nonempty.mpr p.offered)
  have hallow : p.Allows c := Fintype.mem_piFinset.mp hc
  refine ⟨u.worth c, fun s d hd => ?_, fun s => ⟨c s, hallow s, u.worth_eq c s⟩⟩
  by_contra hlt
  have hlt : u.worth c s < u.backup s d (u.worth c) := not_le.mp hlt
  let c' : Chain S := Function.update c s d
  -- the old value is below what the new chain makes of it
  have hle : ∀ t, u.worth c t ≤ u.worth c' t := by
    refine u.le_of_chain (c := c') (fun t => ?_) (fun t => (u.worth_eq c' t).ge)
    rcases eq_or_ne t s with rfl | hts
    · rw [show c' t = d from Function.update_self t d c]
      exact hlt.le
    · rw [show c' t = c t from Function.update_of_ne hts d c]
      exact (u.worth_eq c t).le
  have hstrict : u.worth c s < u.worth c' s := by
    rw [u.worth_eq c' s, show c' s = d from Function.update_self s d c]
    exact hlt.trans_le (u.backup_mono hle s d)
  have hsum : ∑ t, u.worth c t < ∑ t, u.worth c' t :=
    sum_lt_sum (fun t _ => hle t) ⟨s, mem_univ s, hstrict⟩
  exact absurd (hmax c' (Fintype.mem_piFinset.mpr (hallow.update hd))) (not_le.mpr hsum)

namespace Sweep

variable {u} {ε M : ℚ}

/-- **Values that a sweep keeps are unique.** -/
theorem unique (h : u.Sweep p v v) (h' : u.Sweep p w w) : v = w := by
  have hle : ∀ {f g : S → ℚ}, u.Sweep p f f → u.Sweep p g g → ∀ s, f s ≤ g s := fun hf hg =>
    u.le_of_backup (fun t => (hf.attained t).imp fun d hd => ⟨hd.1, hd.2.le⟩) hg.le
  exact funext fun s => le_antisymm (hle h h' s) (hle h' h s)

/-- **A sweep brings values closer together.** -/
theorem abs_sub_le (h : u.Sweep p v w) (h' : u.Sweep p v' w') (hM : ∀ t, |v t - v' t| ≤ M)
    (s : S) : |w s - w' s| ≤ u.discount * M := by
  have hside : ∀ {v w v' w' : S → ℚ}, u.Sweep p v w → u.Sweep p v' w' →
      (∀ t, v t - v' t ≤ M) → w s - w' s ≤ u.discount * M := by
    intro v w v' w' h h' hM
    obtain ⟨d, hd, heq⟩ := h.attained s
    have hle := h'.le s d hd
    have hstep := u.backup_sub_le hM s d
    linarith
  exact abs_sub_le_iff.mpr ⟨hside h h' fun t => (abs_sub_le_iff.mp (hM t)).1,
    hside h' h fun t => (abs_sub_le_iff.mp (hM t)).2⟩

/-- **Successive sweeps close in on each other.** -/
theorem abs_succ_sub_le {x : ℕ → S → ℚ} (h : ∀ k, u.Sweep p (x k) (x (k + 1)))
    (hM : ∀ t, |x 1 t - x 0 t| ≤ M) (k : ℕ) (s : S) :
    |x (k + 1) s - x k s| ≤ u.discount ^ k * M := by
  induction k generalizing s with
  | zero =>
    rw [pow_zero, one_mul]
    exact hM s
  | succ k ih =>
    rw [pow_succ', mul_assoc]
    exact (h (k + 1)).abs_sub_le (h k) ih s

/-- A sweep that changed little is almost attained by an offer of its own. -/
theorem exists_le_backup_add (h : u.Sweep p v w) (hε : ∀ t, |w t - v t| ≤ ε) (s : S) :
    ∃ d ∈ p.options s, w s ≤ u.backup s d w + u.discount * ε := by
  obtain ⟨d, hd, heq⟩ := h.attained s
  refine ⟨d, hd, ?_⟩
  have hstep := u.backup_sub_le (fun t => (abs_sub_le_iff.mp (hε t)).2) s d
  linarith

/-- A sweep that changed little is almost above its own offers. -/
theorem backup_le_add (h : u.Sweep p v w) (hε : ∀ t, |w t - v t| ≤ ε) (s : S)
    {d : Distribution S} (hd : d ∈ p.options s) : u.backup s d w ≤ w s + u.discount * ε := by
  have hle := h.le s d hd
  have hstep := u.backup_sub_le (fun t => (abs_sub_le_iff.mp (hε t)).1) s d
  linarith

/-- **The accuracy of a sweep that changed little**: the values that a sweep keeps are no further
away than all later changes together. -/
theorem abs_sub_fixed_le (h : u.Sweep p v w) (hfixed : u.Sweep p f f)
    (hε : ∀ t, |w t - v t| ≤ ε) (s : S) : |w s - f s| ≤ u.discount * ε / (1 - u.discount) := by
  rw [abs_sub_le_iff]
  constructor
  · have hsub := u.sub_le (b := 0) (h.exists_le_backup_add hε)
      (fun t d hd => (hfixed.le t d hd).trans_eq (add_zero _).symm) s
    rwa [add_zero] at hsub
  · have hsub := u.sub_le (a := 0)
      (fun t => (hfixed.attained t).imp fun d hd => ⟨hd.1, (hd.2.trans (add_zero _).symm).le⟩)
      (fun t d => h.backup_le_add hε t) s
    rwa [zero_add] at hsub

/-- **The loss of a greedy chain**: its worth falls short of the values it was read off by no more
than the same amount. -/
theorem sub_worth_le (h : u.Sweep p v w) (hε : ∀ t, |w t - v t| ≤ ε)
    (hgreedy : ∀ s, ∀ d ∈ p.options s, u.backup s d w ≤ u.backup s (c s) w) (s : S) :
    w s - u.worth c s ≤ u.discount * ε / (1 - u.discount) := by
  have hsub := u.sub_le (p := c.process) (f := w) (g := u.worth c) (a := u.discount * ε) (b := 0)
    (fun t => ?_) (fun t d hd => ?_) s
  · rwa [add_zero] at hsub
  · obtain ⟨d, hd, hle⟩ := h.exists_le_backup_add hε t
    exact ⟨c t, mem_singleton_self _, hle.trans (add_le_add_left (hgreedy t d hd) _)⟩
  · obtain rfl := mem_singleton.mp hd
    rw [add_zero]
    exact (u.worth_eq c t).ge

end Sweep

end Payoff

end MarkovDecision
