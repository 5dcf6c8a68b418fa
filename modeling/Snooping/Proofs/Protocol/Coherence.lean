import Snooping.Proofs.Protocol.Broadcast

/-!
# Coherence

The three invariants of the protocol together: requests and answers balance, every line has at most
one writer, and all copies of a line agree on its value. A line that has a place in memory has the
value that a reference memory gives it, which does every request at the time at which it ends.

* **`View.Coherent`**: the invariant of the protocol.
* `View.coherent_blank`: it holds before anything was asked for.
* **`View.coherent_turn`**, **`View.coherent_broadcast`**: it is kept.
-/

namespace Snooping.View

variable {n : Nat}

/-- **The invariant of the protocol.** -/
structure Coherent (V : View n) (value : Addr → Block) : Prop where
  balanced : V.Balanced
  exclusive : ∀ a, V.Exclusive a
  agrees : ∀ a, ∃ v, V.Agrees a v ∧ (V.lands a → v = value a)

/-- Nobody has anything and nobody waits. -/
structure Blank (V : View n) : Prop where
  stage : ∀ i, V.stage i = .idle
  copy : ∀ i a, V.copy i a = (.invalid, Block.zero)
  jobs : ∀ j, V.jobs j = []
  pending : V.pending = []
  captured : V.captured = none
  block : ∀ a, V.block a = Block.zero
  current : V.current = none

theorem coherent_blank {V : View n} (h : V.Blank) : V.Coherent fun _ => Block.zero := by
  have hstage : ∀ {i s}, V.stage i = s → s ≠ .idle → False := fun {i s} hs hn =>
    hn (hs.symm.trans (h.stage i))
  have hdata : ∀ i a, ¬ (V.copy i a).1.hasData := fun i a => by rw [h.copy]; decide
  have hdirty : ∀ i a, ¬ (V.copy i a).1.isDirty := fun i a => by rw [h.copy]; decide
  have hcurrent : ∀ {t}, V.current ≠ some t := fun {t} =>
    h.current ▸ (Option.some_ne_none t).symm
  have hfetch : ∀ i a, ¬ V.Fetching i a := fun i a hf => hstage hf.awaits Stage.noConfusion
  refine ⟨⟨?_, fun i f a hs => (hstage hs Stage.noConfusion).elim, fun j k hk => ?_,
    fun t hc => (hcurrent hc).elim, fun _ => h.captured, fun t hc => (hcurrent hc).elim,
    fun t hc => (hcurrent hc).elim⟩, fun a => ?_, fun a => ⟨Block.zero, ?_, fun _ => rfl⟩⟩
  · simp [owed, asked, promised, h.stage, h.jobs, h.pending, h.current, Stage.asks]
  · rw [h.jobs j] at hk
    exact absurd hk List.not_mem_nil
  · exact ⟨fun i j _ _ => hdata j a, fun i j _ hd => absurd hd (hdirty i a),
      fun i hs => (hstage hs Stage.noConfusion).elim,
      fun i j _ hs => (hstage hs Stage.noConfusion).elim,
      fun i _ => hdata i a, fun i hs => (hstage hs Stage.noConfusion).elim,
      fun i j _ hf => absurd hf (hfetch i a), fun i t hc => (hcurrent hc).elim⟩
  · have hw : V.writes a = [] := by simp [writes, h.pending]
    exact ⟨fun i hd => absurd hd (hdata i a), fun _ _ => h.block a, fun hn => absurd hw hn,
      fun i hs => (hstage hs Stage.noConfusion).elim,
      fun i hs => (hstage hs Stage.noConfusion).elim,
      fun i hf => absurd hf (hfetch i a), fun i hf => absurd hf (hfetch i a),
      fun i hf => absurd hf (hfetch i a)⟩

theorem lands_turn {V V' : View n} {d : Option Request} (h : V.Turn d V') : V'.lands = V.lands := by
  cases h <;> rfl

theorem lands_broadcast {V V' : View n} {t : Transfer} (h : V.Broadcast t V') :
    V'.lands = V.lands := by
  cases h <;> rfl

/-- **A turn keeps the protocol coherent** with a reference memory that does the request that
ends. -/
theorem coherent_turn {V V' : View n} {d : Option Request} {value : Addr → Block} (hl : V.Lawful)
    (h : V.Coherent value) (ht : V.Turn d V') :
    V'.Coherent fun a => d.elim (value a) fun r => r.update a (value a) := by
  refine ⟨balanced_turn h.balanced ht, fun a => exclusive_turn h.balanced hl (h.exclusive a) ht,
    fun a => ?_⟩
  obtain ⟨v, hv, he⟩ := h.agrees a
  refine ⟨_, agrees_turn h.balanced hl (h.exclusive a) hv ht, fun hx => ?_⟩
  rw [he (lands_turn ht ▸ hx)]

/-- **A broadcast keeps the protocol coherent.** -/
theorem coherent_broadcast {V V' : View n} {t : Transfer} {value : Addr → Block} (hl : V.Lawful)
    (h : V.Coherent value) (hc : V.current = some t) (ht : V.Broadcast t V') :
    V'.Coherent value := by
  refine ⟨balanced_broadcast h.balanced hc ht,
    fun a => exclusive_broadcast h.balanced hl (h.exclusive a) hc ht, fun a => ?_⟩
  obtain ⟨v, hv, he⟩ := h.agrees a
  obtain ⟨v', hv', he'⟩ := agrees_broadcast h.balanced hl (h.exclusive a) hv hc ht
  refine ⟨v', hv', fun hx => ?_⟩
  rw [lands_broadcast ht] at hx
  exact (he' hx).trans (he hx)

end Snooping.View
