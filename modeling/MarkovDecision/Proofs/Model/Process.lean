import MarkovDecision.Proofs.Model.Stochastic
import MarkovDecision.Proofs.Process.Choice

/-!
# The chances of a model

What the reachability queries of a model are measured against. Within `n` steps
the largest and the smallest chance of a target are given by the obvious
recursions over the enabled actions (`Model.bestWithin`, `Model.worstWithin`), and a
way of choosing that fixes one action for every state has a chance of staying off
the target for `n` steps (`Model.avoiding`).

A stochastic model is a process in the sense of
`MarkovDecision.Proofs.Process.Basic`, its offers being the rows of the enabled
actions (`Model.Stochastic.process`), and the recursions are those of the process.
Without declared actions there is one offer, and the two recursions coincide with
the one of the chain.
-/

namespace MarkovDecision

open Finset

namespace Model

/-- The largest chance of having come to a target within a number of steps. -/
def bestWithin (m : Model ℚ) (target : m.State) : ℕ → m.State → ℚ
  | 0 => fun s => if s = target then 1 else 0
  | n + 1 => fun s =>
    if s = target then 1
    else ((m.enabled.get s).map fun a => ∑ t, m.prob s a t * m.bestWithin target n t).max?.getD 0

/-- The smallest chance of having come to a target within a number of steps. -/
def worstWithin (m : Model ℚ) (target : m.State) : ℕ → m.State → ℚ
  | 0 => fun s => if s = target then 1 else 0
  | n + 1 => fun s =>
    if s = target then 1
    else ((m.enabled.get s).map fun a => ∑ t, m.prob s a t * m.worstWithin target n t).min?.getD 0

/-- The chance that a run which takes the action `choice s` in every state `s` has not come to a
target within a number of steps. -/
def avoiding (m : Model ℚ) (choice : m.State → m.Action) (target : m.State) :
    ℕ → m.State → ℚ
  | 0 => fun s => if s = target then 0 else 1
  | n + 1 => fun s =>
    if s = target then 0 else ∑ t, m.prob s (choice s) t * m.avoiding choice target n t

namespace Stochastic

variable {m : Model ℚ} (h : m.Stochastic)

/-- The distribution of an enabled action. -/
def row (s : m.State) (a : m.Action) (ha : a ∈ m.enabled.get s) : Distribution m.State where
  weight := m.prob s a
  weight_nonneg := h.prob_nonneg s a
  sum_weight := h.sum_prob s a ha

open Classical in
/-- **The process of a model**: what may be chosen in a state is the row of an enabled action. -/
noncomputable def process : Process m.State where
  options s := ((m.enabled.get s).attach.map fun a => h.row s a.1 a.2).toFinset
  offered s := by
    obtain ⟨a, ha⟩ := List.exists_mem_of_ne_nil _ (h.enabled_ne_nil s)
    exact ⟨h.row s a ha, List.mem_toFinset.mpr
      (List.mem_map.mpr ⟨⟨a, ha⟩, List.mem_attach _ _, rfl⟩)⟩

theorem mem_options {s : m.State} {d : Distribution m.State} :
    d ∈ h.process.options s ↔ ∃ a, ∃ ha : a ∈ m.enabled.get s, h.row s a ha = d := by
  simp only [process, List.mem_toFinset, List.mem_map, List.mem_attach, true_and, Subtype.exists]

theorem row_mem_options {s : m.State} {a : m.Action} (ha : a ∈ m.enabled.get s) :
    h.row s a ha ∈ h.process.options s :=
  h.mem_options.mpr ⟨a, ha, rfl⟩

theorem mean_row {s : m.State} {a : m.Action} (ha : a ∈ m.enabled.get s) (f : m.State → ℚ) :
    (h.row s a ha).mean f = ∑ t, m.prob s a t * f t := rfl

/-- **The recursion for the largest chance is the one of the process.** -/
theorem bestWithin_eq (target : m.State) (n : ℕ) :
    m.bestWithin target n = h.process.best target n := by
  induction n with
  | zero => rfl
  | succ n ih =>
    funext s
    rcases eq_or_ne s target with rfl | hs
    · simp [bestWithin, Process.best]
    have hmax : ((m.enabled.get s).map fun a => ∑ t, m.prob s a t * m.bestWithin target n t).max?
        = some (h.process.best target (n + 1) s) := by
      rw [List.max?_eq_some_iff]
      refine ⟨?_, fun q hq => ?_⟩
      · obtain ⟨d, hd, heq⟩ := h.process.exists_best_succ hs n
        obtain ⟨a, ha, rfl⟩ := h.mem_options.mp hd
        exact List.mem_map.mpr ⟨a, ha, by rw [heq, mean_row, ih]⟩
      · obtain ⟨a, ha, rfl⟩ := List.mem_map.mp hq
        rw [ih, ← h.mean_row ha]
        exact h.process.mean_le_best_succ hs (h.row_mem_options ha) n
    simp only [bestWithin, hs, if_false, hmax, Option.getD_some]

/-- **The recursion for the smallest chance is the one of the process.** -/
theorem worstWithin_eq (target : m.State) (n : ℕ) :
    m.worstWithin target n = h.process.worst target n := by
  induction n with
  | zero => rfl
  | succ n ih =>
    funext s
    rcases eq_or_ne s target with rfl | hs
    · simp [worstWithin, Process.worst]
    have hmin : ((m.enabled.get s).map fun a => ∑ t, m.prob s a t * m.worstWithin target n t).min?
        = some (h.process.worst target (n + 1) s) := by
      rw [List.min?_eq_some_iff]
      refine ⟨?_, fun q hq => ?_⟩
      · obtain ⟨d, hd, heq⟩ := h.process.exists_worst_succ target hs n
        obtain ⟨a, ha, rfl⟩ := h.mem_options.mp hd
        exact List.mem_map.mpr ⟨a, ha, by rw [heq, mean_row, ih]⟩
      · obtain ⟨a, ha, rfl⟩ := List.mem_map.mp hq
        rw [ih, ← h.mean_row ha]
        exact h.process.worst_succ_le target hs (h.row_mem_options ha) n
    simp only [worstWithin, hs, if_false, hmin, Option.getD_some]

/-! ### Fixing the actions -/

/-- The chain of a way of choosing that fixes one enabled action for every state. -/
def follow {choice : m.State → m.Action} (hchoice : ∀ s, choice s ∈ m.enabled.get s) :
    Chain m.State :=
  fun s => h.row s (choice s) (hchoice s)

theorem allows_follow {choice : m.State → m.Action}
    (hchoice : ∀ s, choice s ∈ m.enabled.get s) : h.process.Allows (h.follow hchoice) :=
  fun s => h.row_mem_options (hchoice s)

/-- A chain that picks the row of an enabled action everywhere fixes actions. -/
theorem exists_follow_of_allows {c : Chain m.State} (hc : h.process.Allows c) :
    ∃ choice : m.State → m.Action, ∃ hchoice : ∀ s, choice s ∈ m.enabled.get s,
      h.follow hchoice = c := by
  choose choice hchoice hrow using fun s => h.mem_options.mp (hc s)
  exact ⟨choice, hchoice, funext hrow⟩

/-- **Staying off the target is the opposite of having come to it.** -/
theorem avoiding_eq {choice : m.State → m.Action} (hchoice : ∀ s, choice s ∈ m.enabled.get s)
    (target : m.State) (n : ℕ) (s : m.State) :
    m.avoiding choice target n s = 1 - (h.follow hchoice).within target n s := by
  induction n generalizing s with
  | zero =>
    by_cases hs : s = target <;> simp [avoiding, Chain.within, hs]
  | succ n ih =>
    rcases eq_or_ne s target with rfl | hs
    · simp [avoiding, Chain.within]
    · simp only [avoiding, Chain.within, hs, if_false, ih]
      have hmean := (h.row s (choice s) (hchoice s)).mean_sub (f := fun _ => 1)
        (g := (h.follow hchoice).within target n)
      rw [Distribution.mean_const] at hmean
      exact hmean

end Stochastic

/-! ### Models without declared actions -/

theorem enabled_of_isChain {K : Type} {m : Model K} (hm : m.isChain = true) (s : m.State) :
    m.enabled.get s = [m.unnamed] := by
  rw [isChain, Bool.and_eq_true, List.all_eq_true] at hm
  exact eq_of_beq (hm.2 s (List.mem_finRange s))

theorem unnamed_mem_enabled {K : Type} {m : Model K} (hm : m.isChain = true) (s : m.State) :
    m.unnamed ∈ m.enabled.get s := by
  rw [enabled_of_isChain hm s]
  exact List.mem_singleton_self _

namespace Stochastic

variable {m : Model ℚ} (h : m.Stochastic) (hm : m.isChain = true)

/-- The chain that a model without declared actions is. -/
def chain : Chain m.State := h.follow (unnamed_mem_enabled hm)

/-- **A model without declared actions is a process without a choice.** -/
theorem process_of_isChain : h.process = (h.chain hm).process := by
  ext s d
  rw [mem_options, Chain.process, mem_singleton]
  constructor
  · rintro ⟨a, ha, rfl⟩
    obtain rfl : a = m.unnamed := List.mem_singleton.mp (enabled_of_isChain hm s ▸ ha)
    rfl
  · rintro rfl
    exact ⟨m.unnamed, unnamed_mem_enabled hm s, rfl⟩

end Stochastic

end Model

end MarkovDecision
