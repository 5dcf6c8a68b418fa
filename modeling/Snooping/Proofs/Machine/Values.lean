import Snooping.Proofs.Machine.Runs

/-!
# The values of lines

The caches and memory together behave as one memory that does the requests in the order in which
they end.

* **`Machine.reads_last_write`**: reads return what was written last.
* **`Machine.copies_last_write`**: all copies of a line have what was written last, and so has
  memory when no cache answers for the line.
-/

namespace Snooping.Machine

variable {spec : Spec} {programs : List Program} {g : Geometry}
  {m₀ m : Machine g programs.length} {l : List Transfer}

/-- **Reads return the latest write**, in the order of cycles and cores in which requests end, and 0
where nothing was written. -/
theorem reads_last_write (h : ofSpec spec programs = .ok ⟨g, m₀⟩) (hr : m₀.Reaches l m) :
    m.timeline.Pairwise Entry.Before ∧
      ∀ before e after, m.timeline = before ++ e :: after →
        ∀ a, e.ended.request = .read a → a.val < spec.memorySize →
          e.ended.value = lastWrite before a a.word := by
  obtain ⟨⟨t, hrest⟩, rfl, -⟩ := rested_of_ofSpec h hr
  exact ⟨hrest.recorded.ordered, hrest.recorded.faithful⟩

theorem reads_last_write_tiny : ∃ m l, tiny.Reaches l m ∧
    m.timeline.map (fun e => (e.ended.request, e.ended.value)) =
      [(.write ⟨0⟩ 7, 7), (.read ⟨0⟩, 7), (.write ⟨64⟩ 9, 9), (.read ⟨0⟩, 7)] ∧
    ∀ before e after, m.timeline = before ++ e :: after → e.ended.request = .read ⟨0⟩ →
      e.ended.value = lastWrite before ⟨0⟩ (Addr.word ⟨0⟩) := by
  obtain ⟨m, l, hr, hm⟩ := exists_reaches tiny 25
    (fun m => m.timeline.map (fun e => (e.ended.request, e.ended.value)) =
      [(.write ⟨0⟩ 7, 7), (.read ⟨0⟩, 7), (.write ⟨64⟩ 9, 9), (.read ⟨0⟩, 7)]) (by decide +kernel)
  obtain ⟨-, hreads⟩ := reads_last_write ofSpec_tiny hr
  exact ⟨m, l, hr, hm, fun before e after he hq => hreads before e after he ⟨0⟩ hq (by decide)⟩

/-- **No write is lost.** All copies of a line with data have the same data. In a line that lies in
memory these are the words that were written last, and memory has the same words unless a cache
answers for the line, or has taken it away from the others and is about to write it. -/
theorem copies_last_write (h : ofSpec spec programs = .ok ⟨g, m₀⟩) (hr : m₀.Reaches l m) :
    (∀ (i j : Fin programs.length) a x y, (a, x) ∈ m.caches[i].resident →
      (a, y) ∈ m.caches[j].resident → x.state.hasData → y.state.hasData → x.data = y.data) ∧
    ∀ a : Addr, a.val < spec.memorySize →
      (∀ (i : Fin programs.length) x, (a.line, x) ∈ m.caches[i].resident → x.state.hasData →
        ∀ w : Fin lineWords, x.data[w] = lastWrite m.timeline a w) ∧
      ((∀ (i : Fin programs.length) x, (a.line, x) ∈ m.caches[i].resident → ¬ x.state.isDirty) →
        (∀ (i : Fin programs.length) r w, m.caches[i].access = some r → r.phase = .promote w →
          r.request.addr.line ≠ a.line) →
        ∀ w : Fin lineWords, (m.memory.readBlock a)[w] = lastWrite m.timeline a w) := by
  obtain ⟨⟨t, hrest⟩, rfl, -⟩ := rested_of_ofSpec h hr
  refine ⟨fun i j a x y hx hy hdx hdy => ?_, fun a ha => ⟨fun i x hx hd w => ?_,
    fun hclean hpromote w => ?_⟩⟩
  · obtain ⟨v, hv, -⟩ := hrest.coherent.agrees a
    have hcx := (hrest.copy_eq hx).1
    have hcy := (hrest.copy_eq hy).1
    have hvx := hv.copies i (by rwa [hcx])
    have hvy := hv.copies j (by rwa [hcy])
    rw [hcx] at hvx
    rw [hcy] at hvy
    exact hvx.trans hvy.symm
  · have hcx := (hrest.copy_eq hx).1
    have hlands : m.calm.lands a.line :=
      (m.lawful_view.lands a.line_line).trans (lands_of_lt hrest.sound hrest.usable ha)
    have hword := word_of_coherent hrest.coherent (i := i) (by rwa [hcx]) hlands w
    rwa [hcx, lastWrite_line] at hword
  · obtain ⟨v, hv, he⟩ := hrest.coherent.agrees a
    have hlands : m.calm.lands a := lands_of_lt hrest.sound hrest.usable ha
    have hblock := hv.settled hlands fun i => ⟨fun hd => ?_, fun hs => ?_⟩
    · show (m.calm.block a)[w] = _
      rw [hblock, he hlands, getElem_valueOf]
    · have hlive : (m.caches[i].copy a).1 ≠ .invalid := fun hx => by
        change (m.caches[i].copy a).1.isDirty at hd
        rw [hx] at hd
        cases hd
      obtain ⟨x, hx, hc⟩ := Cache.mem_resident_of_copy (hrest.sound.tidy i).distinct hlive
      refine hclean i x hx ?_
      change (m.caches[i].copy a).1.isDirty at hd
      rwa [hc] at hd
    · obtain ⟨r, w, hr, hp, hl⟩ := Cache.access_of_taken hs
      exact hpromote i r w hr hp hl

theorem copies_last_write_tiny : ∃ m l, tiny.Reaches l m ∧
    (∀ i : Fin tinyPrograms.length,
      m.caches[i].resident.map (fun x => (x.1, x.2.state)) = [(⟨0⟩, .shared)]) ∧
    (∀ (i j : Fin tinyPrograms.length) x y, (⟨0⟩, x) ∈ m.caches[i].resident →
      (⟨0⟩, y) ∈ m.caches[j].resident → x.data = y.data) ∧
    ∀ w : Fin lineWords, (m.memory.readBlock ⟨0⟩)[w] = lastWrite m.timeline ⟨0⟩ w := by
  obtain ⟨m, l, hr, hm, hi⟩ := exists_reaches tiny 24
    (fun m => (∀ i : Fin tinyPrograms.length,
        m.caches[i].resident.map (fun x => (x.1, x.2.state)) = [(⟨0⟩, .shared)]) ∧
      ∀ i : Fin tinyPrograms.length, m.caches[i].access = none) (by decide +kernel)
  have hshared : ∀ (i : Fin tinyPrograms.length) a x, (a, x) ∈ m.caches[i].resident →
      x.state = .shared := fun i a x hx => by
    have hx := List.mem_map_of_mem (f := fun x => (x.1, x.2.state)) hx
    rw [hm i, List.mem_singleton, Prod.mk.injEq] at hx
    exact hx.2
  obtain ⟨hsame, hlast⟩ := copies_last_write ofSpec_tiny hr
  refine ⟨m, l, hr, hm, fun i j x y hx hy => hsame i j ⟨0⟩ x y hx hy ?_ ?_,
    (hlast ⟨0⟩ (by decide)).2 (fun i x hx => ?_) fun i r w hr => ?_⟩
  · rw [hshared i _ x hx]
    rfl
  · rw [hshared j _ y hy]
    rfl
  · rw [hshared i _ x hx]
    exact Bool.false_ne_true
  · cases (hi i).symm.trans hr

end Snooping.Machine
