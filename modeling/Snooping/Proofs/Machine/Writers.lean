import Snooping.Proofs.Machine.Contradictions

/-!
# One writer for a line

Two caches never have a line if one of them believes to have it alone, and never both answer for
it. So the check after a cycle finds nothing, whether it is made or not.

* **`Machine.violation?_eq_none`**: the check finds nothing in a machine at rest.
* **`Machine.single_writer`**: what holds in every state that steps can reach.
-/

namespace Snooping

variable {g : Geometry} {n : Nat}

namespace Machine

theorem Rested.exclusive {t : Nat} {m : Machine g n} (h : Rested t m) {i j : Fin n} (hij : i ≠ j)
    {a : Addr} {x y : Line} (hx : (a, x) ∈ m.caches[i].resident)
    (hy : (a, y) ∈ m.caches[j].resident) :
    (x.state.isSole → ¬ y.state.hasData) ∧ (x.state.isDirty → ¬ y.state.isDirty) := by
  have he := h.coherent.exclusive a
  have hsole := he.sole i j hij
  have hdirty := he.dirty i j hij
  rw [(h.copy_eq hx).1, (h.copy_eq hy).1] at hsole hdirty
  exact ⟨hsole, hdirty⟩

theorem violation?_eq_none {t : Nat} {m : Machine g n} (h : Rested t m) : m.violation? = none := by
  have hc : m.Consistent := by
    refine ⟨fun k => (h.sound.tidy k).distinct, fun k l hkl a hk hl => ?_⟩
    obtain ⟨x, hx, hsx⟩ := Cache.holdsAlone_iff.mp hk
    obtain ⟨y, hy, hsy⟩ := Cache.holdsAlone_iff.mp hl
    exact (h.exclusive hkl hx hy).1 hsx (LineState.hasData_of_isSole hsy)
  obtain ⟨hv, -⟩ | ⟨v, -, hs⟩ := violation?_cases fun k => (h.sound.tidy k).bounded
  · exact hv
  · exact absurd hc hs.not_consistent

theorem checkCoherence_eq_ok {t : Nat} {m : Machine g n} (h : Rested t m) :
    m.checkCoherence = .ok () := by
  rw [checkCoherence, violation?_eq_none h]

theorem Rested.step_coherent {t : Nat} {m m' : Machine g n} (h : Rested t m)
    {r : Except SimError Bool} (hs : m.step = .ok (r, m')) (c : Nat) (v : Violation) :
    r ≠ .error (.incoherent c v) := by
  rintro rfl
  obtain ⟨-, hr | ⟨limit, hr⟩⟩ | ⟨t', ht, hc, hr | hr⟩ := step_cases hs
  · cases hr
  · cases hr
  · cases hr
  · rw [checkCoherence_eq_ok (rested_cycle h ht hc).1] at hr
    cases hr

theorem Rested.runFor_coherent {t : Nat} {m m' : Machine g n} (h : Rested t m) {fuel : Nat}
    {r : Except SimError Unit} (hr : m.runFor fuel = .ok (r, m')) (c : Nat) (v : Violation) :
    r ≠ .error (.incoherent c v) := by
  induction fuel generalizing t m with
  | zero => cases hr
  | succ fuel ih =>
    unfold runFor at hr
    split at hr
    · cases hr
      exact fun hx => nomatch hx
    · cases hs : m.step with
      | error f =>
        rw [hs] at hr
        cases hr
      | ok x =>
        obtain ⟨r₁, m₁⟩ := x
        have hcoherent := h.step_coherent hs c v
        obtain ⟨⟨t', hrest⟩, -⟩ := rested_step h hs
        simp only [hs, bind, Except.bind] at hr
        cases r₁ with
        | error e =>
          cases hr
          exact fun hx => hcoherent (by cases hx; rfl)
        | ok b =>
          cases b with
          | false =>
            cases hr
            exact fun hx => nomatch hx
          | true => exact ih hrest hr

/-- **One writer for a line.** A cache that has a line modified or exclusive is the only one that
has data for it, one cache at most has it modified or owned, and a line that was written back or
taken away is in no other cache, not even awaited. So no step and no run ends with a
contradiction. -/
theorem single_writer {spec : Spec} {programs : List Program} {g : Geometry}
    {m₀ m : Machine g programs.length} {l : List Transfer}
    (h : ofSpec spec programs = .ok ⟨g, m₀⟩) (hr : m₀.Reaches l m) :
    (∀ (i j : Fin programs.length), i ≠ j → ∀ a x y, (a, x) ∈ m.caches[i].resident →
      (a, y) ∈ m.caches[j].resident →
        (x.state = .modified ∨ x.state = .exclusive → ¬ y.state.hasData) ∧
        (x.state = .modified ∨ x.state = .owned → ¬ (y.state = .modified ∨ y.state = .owned))) ∧
    (∀ t, m.bus.current = some t → t.func = .write ∨ t.func = .invalidate →
      ∀ j : Fin programs.length, (j : Nat) ≠ t.requester →
        ∀ x, (t.addr.line, x) ∉ m.caches[j].resident) ∧
    (∀ r m', m.step = .ok (r, m') → ∀ c v, r ≠ .error (.incoherent c v)) ∧
    ∀ r m', m.run = .ok (r, m') → ∀ c v, r ≠ .error (.incoherent c v) := by
  obtain ⟨⟨t, hrest⟩, rfl, -⟩ := rested_of_ofSpec h hr
  refine ⟨fun i j hij a x y hx hy => ?_, fun u hu hf j hj x hx => ?_,
    fun r m' hs => hrest.step_coherent hs, fun r m' hs => hrest.runFor_coherent hs⟩
  · obtain ⟨hsole, hdirty⟩ := hrest.exclusive hij hx hy
    refine ⟨fun hs => hsole ?_, fun hd he => hdirty ?_ ?_⟩
    · rcases hs with hs | hs <;> rw [hs] <;> rfl
    · rcases hd with hd | hd <;> rw [hd] <;> rfl
    · rcases he with he | he <;> rw [he] <;> rfl
  · have hgone := hrest.gone u hu hf j hj
    have hc : m.caches[j].copy u.addr.line = (x.state, x.data) := (hrest.copy_eq hx).1
    obtain ⟨_, _, rfl, hlive, -⟩ := Cache.mem_resident.mp hx
    rw [← Cache.copy_congr _ u.addr.line_line, hc] at hgone
    exact Cache.isLive_iff.mp hlive hgone

theorem single_writer_tiny : ∃ m l, tiny.Reaches l m ∧
    m.bus.current = some ⟨0, .cache 0, ⟨0⟩, .invalidate, none⟩ ∧
    ∀ x, (⟨0⟩, x) ∉ m.caches[1].resident := by
  obtain ⟨m, l, hr, hm⟩ := exists_reaches tiny 7
    (fun m => m.bus.current = some ⟨0, .cache 0, ⟨0⟩, .invalidate, none⟩) (by decide +kernel)
  obtain ⟨-, hgone, -⟩ := single_writer ofSpec_tiny hr
  exact ⟨m, l, hr, hm, hgone _ hm (.inr rfl) ⟨1, by decide⟩ (by decide)⟩

end Machine

end Snooping
