import MarkovDecision.Proofs.Description.Acceptance

/-!
# Tokens that lead to a fault

`Leads` says that tokens are read to their end. Here is its counterpart for tokens that
are not: they are read up to one of them, some declarations are completed on the way, and
that token is out of place (`Faults`). Tokens that lead on may stand in front, and what
stands behind does not matter.

A text whose tokens lead to a fault is read up to it, and the sink has been handed
what had been completed by then (`Faults.readDescription`).
-/

namespace MarkovDecision

/-- Tokens lead to a fault, wherever they stand, after some declarations. -/
def Faults (e : Expecting) (ts : List Token) (ds : List Declaration) (fault : SyntaxFault) : Prop :=
  ∀ l : List Located, l.map Located.token = ts → ∃ l₁ t l₂ mid, l = l₁ ++ t :: l₂ ∧
    Reads e l₁ ds mid ∧ mid.next t = Expecting.fail fault

section Faults

variable {e mid : Expecting} {t : Token} {ts us : List Token} {ds ds' : List Declaration}
  {fault : SyntaxFault}

theorem faults_here (ht : ∀ p, e.next ⟨t, p⟩ = Expecting.fail fault) (ts : List Token) :
    Faults e (t :: ts) [] fault := by
  intro l hl
  obtain ⟨⟨_, p⟩, rest, rfl, rfl, -⟩ := List.map_eq_cons_iff.mp hl
  exact ⟨[], ⟨_, p⟩, rest, e, rfl, .done e, ht p⟩

/-- A token that completes nothing. -/
theorem Faults.shift {after : Position → Expecting} (h : ∀ p, Faults (after p) ts ds fault)
    (ht : ∀ p, e.next ⟨t, p⟩ = Expecting.go (after p)) : Faults e (t :: ts) ds fault := by
  intro l hl
  obtain ⟨⟨_, p⟩, rest, rfl, rfl, hrest⟩ := List.map_eq_cons_iff.mp hl
  obtain ⟨l₁, u, l₂, mid, rfl, hreads, hu⟩ := h p rest hrest
  have hstep := Reads.step (congrArg Move.next (ht p)) hreads
  rw [ht p] at hstep
  exact ⟨_ :: l₁, u, l₂, mid, rfl, hstep, hu⟩

theorem Reads.append {e last : Expecting} {l₁ l₂ : List Located} (h : Reads e l₁ ds mid)
    (h' : Reads mid l₂ ds' last) : Reads e (l₁ ++ l₂) (ds ++ ds') last := by
  induction h with
  | done e => exact h'
  | step hnext _ ih =>
    rw [List.append_assoc]
    exact .step hnext (ih h')

/-- What leads on may stand in front. -/
theorem Leads.faults (h : Leads e us ds mid) (h' : Faults mid ts ds' fault) :
    Faults e (us ++ ts) (ds ++ ds') fault := by
  intro l hl
  obtain ⟨l₀, rest, rfl, hus, hts⟩ := List.map_eq_append_iff.mp hl
  obtain ⟨l₁, t, l₂, last, rfl, hreads, ht⟩ := h' rest hts
  exact ⟨l₀ ++ l₁, t, l₂, last, (List.append_assoc _ _ _).symm, (h l₀ hus).append hreads, ht⟩

/-- **A text that leads to a fault is read up to it.** -/
theorem Faults.readDescription {σ ε : Type} {text : String} {ls : List Located}
    (htokens : tokens text = .ok ls) (h : Faults .header (ls.map Located.token) ds fault)
    (take : Declaration → σ → σ) (s : σ) : ∃ p,
    readDescription (ε := ε) (.accepting take) text s
      = .error (.syntactic p fault) (ds.foldl (fun s d => take d s) s) := by
  obtain ⟨l₁, t, l₂, mid, rfl, hreads, ht⟩ := h ls rfl
  refine ⟨t.position, ?_⟩
  have hbefore := (foldlM_feedToken_iff (ε := ε) take (s := s)).mpr ⟨ds, hreads, rfl⟩
  have hfault : feedToken (ε := ε) (.accepting take) mid t (ds.foldl (fun s d => take d s) s)
      = .error (.syntactic t.position fault) (ds.foldl (fun s d => take d s) s) := by
    rw [feedToken_accepting, ht]
    rfl
  have hsplit : discard ((l₁ ++ t :: l₂).foldlM (feedToken (ε := ε) (.accepting take)) .header) s
      = EStateM.map (fun _ => ()) (EStateM.bind (l₁.foldlM (feedToken (.accepting take)) .header)
          fun e => EStateM.bind (feedToken (.accepting take) e t)
            (l₂.foldlM (feedToken (.accepting take)))) s := by
    rw [List.foldlM_append]
    rfl
  rw [MarkovDecision.readDescription, htokens]
  refine hsplit.trans ?_
  simp only [EStateM.map, EStateM.bind, hbefore, hfault]

end Faults

end MarkovDecision
