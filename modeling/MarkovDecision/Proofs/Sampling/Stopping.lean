import MarkovDecision.Proofs.Simulation.Policies
import MarkovDecision.Sampling.Estimate

/-!
# A run that is broken off

The statistical engines ask only whether a run comes to a target, and so they do not
make a run: they take steps until one leads there, forget where they have been, and do
not take down the state that ends the search. What they answer is nevertheless what a
run would show that goes on to its last step (`Model.pathHits_eq_visits`), for every
source whose draws keep to their bounds and in whatever arithmetic.

The two make the same draws as long as both go on, although they hand different
histories to the policy: the even policy looks at the present state only
(`step_uniform_congr`). It is never refused, so neither of the two fails. After the
target has been reached they part, and what the run goes on to draw no longer matters.
-/

namespace MarkovDecision

variable {K G : Type} [Scalar K] [RandomSource G] [LawfulDraws G] {m : Model K}

/-! ### Steps under the even policy -/

omit [LawfulDraws G] in
/-- The even policy takes no notice of the past. -/
theorem step_uniform_congr (s : m.State) (past past' : List ℕ) :
    step m (Policy.uniform (M := StateM G) m) (s.val :: past)
      = step m (Policy.uniform (M := StateM G) m) (s.val :: past') := rfl

/-! ### The search and the run -/

/-- **The search goes along with the run.** The run adds states to its trail, and the search finds
the target exactly if it is one of them; where it is not, the two have drawn the same. -/
theorem exists_hitsFrom (hm : ∀ s, m.enabled.get s ≠ []) (target : m.State) (k : ℕ) (s : m.State)
    (past : List ℕ) (path : Path m) (g : G) :
    ∃ later last g₁ g₂,
      prolong m (Policy.uniform (M := StateM G) m) k (s.val :: past) path g
        = (.ok ⟨later ++ path.trail, last⟩, g₁) ∧
      hitsFrom m target k s g = (.ok (later.contains target), g₂) ∧
      (target ∉ later → g₂ = g₁) := by
  induction k generalizing s past path g with
  | zero => exact ⟨[], path.lastAction, g, g, rfl, rfl, fun _ => rfl⟩
  | succ k ih =>
    obtain ⟨⟨a, t⟩, mid, hstep⟩ := exists_step_uniform hm s past g
    obtain ⟨later, last, g₁, g₂, hrun, hsearch, hdrawn⟩ :=
      ih t (s.val :: past) ⟨t :: path.trail, some a⟩ mid
    have hprolong : prolong m (Policy.uniform (M := StateM G) m) (k + 1) (s.val :: past) path g
        = (.ok ⟨(later ++ [t]) ++ path.trail, last⟩, g₁) := by
      rw [prolong, run_bind_of_ok hstep, hrun, List.append_assoc]
      rfl
    rw [step_uniform_congr s past []] at hstep
    -- the search ends with this step, or goes on behind it
    by_cases ht : t = target
    · have hhit : (later ++ [t]).contains target = true := by simp [ht]
      refine ⟨later ++ [t], last, g₁, mid, hprolong, ?_, fun hmiss => ?_⟩
      · rw [hitsFrom, run_bind_of_ok hstep, if_pos ht, hhit]
        rfl
      · exact absurd (List.contains_iff_mem.mp hhit) hmiss
    · have hskip : (later ++ [t]).contains target = later.contains target := by simp [Ne.symm ht]
      refine ⟨later ++ [t], last, g₁, g₂, hprolong, ?_, fun hmiss => ?_⟩
      · rw [hitsFrom, run_bind_of_ok hstep, if_neg ht, hsearch, hskip]
      · exact hdrawn fun hlater => hmiss (List.mem_append_left [t] hlater)

namespace Model

/-- **Breaking a run off does not change what it finds.** For every model that has been built,
every target, every number of steps and every source of lawful draws, as every source of words is
one, the search that stops at the target does not fail, and it says whether the run of all the
steps from the same source visits the target; where it does not, the two have drawn the same. -/
theorem pathHits_eq_visits {b : Builder K} {initial : Option String}
    (hm : b.build initial = .ok m) (target : m.State) (horizon : ℕ) (g : G) :
    ∃ path g₁ g₂, simulate m horizon (Policy.uniform (M := StateM G) m) none g = (.ok path, g₁) ∧
      pathHits m target horizon g = (.ok (path.visits target), g₂) ∧
      (path.visits target = false → g₂ = g₁) := by
  obtain ⟨later, last, g₁, g₂, hrun, hsearch, hdrawn⟩ :=
    exists_hitsFrom (Builder.enabled_ne_nil_of_build hm) target horizon m.initial []
      ⟨[m.initial], none⟩ g
  have hsimulate : simulate m horizon (Policy.uniform (M := StateM G) m) none g
      = (.ok ⟨later ++ [m.initial], last⟩, g₁) := by
    rw [simulate, Option.getD_none, run_bind_of_ok (run_checked (m.checkState_val m.initial))]
    exact hrun
  by_cases hstart : m.initial = target
  · have hhit : Path.visits (m := m) ⟨later ++ [m.initial], last⟩ target = true := by
      simp [Path.visits, hstart]
    refine ⟨_, g₁, g, hsimulate, ?_, fun hmiss => ?_⟩
    · rw [pathHits, if_pos hstart, hhit]
      rfl
    · cases hhit.symm.trans hmiss
  · have hskip : Path.visits (m := m) ⟨later ++ [m.initial], last⟩ target
        = later.contains target := by
      simp [Path.visits, Ne.symm hstart]
    refine ⟨_, g₁, g₂, hsimulate, ?_, fun hmiss => hdrawn fun hlater => ?_⟩
    · rw [pathHits, if_neg hstart, hsearch, hskip]
    · cases (hskip.trans (List.contains_iff_mem.mpr hlater)).symm.trans hmiss

/-- At the fork a run turns twice, stays there the first time and comes to the left the second
time; the search stops then, and the run makes its third step. -/
theorem pathHits_eq_visits_forking : ∃ b : Builder ℚ, ∃ m : Model ℚ, ∃ target : m.State,
    ∃ path g₁ g₂, Builder.ofDeclarations forking = .ok b ∧ b.build none = .ok m ∧
      m.findState "left" = .ok target ∧
      simulate m 3 (Policy.uniform (M := StateM Cycle) m) none
        (Cycle.ofList [0, 0, 0, 0xFFFFFFFFFFFFFFFF]) = (.ok path, g₁) ∧
      path.visits target = true ∧
      pathHits m target 3 (Cycle.ofList [0, 0, 0, 0xFFFFFFFFFFFFFFFF]) = (.ok true, g₂) := by
  obtain ⟨b, m, hb, hm, htest⟩ := Builder.exists_of_any forking
    (fun m => (m.findState "left").toOption.any fun target =>
      (simulate m 3 (Policy.uniform (M := StateM Cycle) m) none
        (Cycle.ofList [0, 0, 0, 0xFFFFFFFFFFFFFFFF])).1.toOption.any fun path =>
          path.visits target) (by decide +kernel)
  obtain ⟨target, hfind, htest⟩ := (Option.any_eq_true _ _).mp htest
  obtain ⟨path', hpath, hvisits⟩ := (Option.any_eq_true _ _).mp htest
  obtain ⟨path, g₁, g₂, hrun, hsearch, -⟩ := pathHits_eq_visits hm target 3
    (Cycle.ofList [0, 0, 0, 0xFFFFFFFFFFFFFFFF])
  rw [hrun] at hpath
  obtain rfl := Option.some.inj hpath
  rw [hvisits] at hsearch
  exact ⟨b, m, target, path, g₁, g₂, hb, hm, eq_ok_of_toOption hfind, hrun, hvisits, hsearch⟩

end Model

end MarkovDecision
