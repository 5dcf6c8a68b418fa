import Mathlib.Tactic.Common
import Snooping.Memory.Store
import Snooping.Spec

/-!
# Usable specifications

What a specification promises once it is found usable, apart from the shape of its caches.

* **`Spec.Usable`**, `Spec.usable_of_validate`.
* `Spec.Usable.latency_pos`: memory takes its time.
* `Spec.Usable.line_le`: a line with an address in memory lies in memory as a whole.
-/

namespace Snooping.Spec

/-- **The numbers of a usable specification.** -/
structure Usable (s : Spec) : Prop where
  ways : s.ways ≠ 0
  memory : s.memorySize ≠ 0
  lines : s.memorySize.toNat % lineSize = 0
  cold : s.coldLatency ≠ 0
  warm : s.warmLatency ≠ 0
  counter : s.maxCounter ≠ 0

theorem usable_of_validate {s : Spec} {g : Geometry} (h : s.validate = .ok g) : s.Usable := by
  unfold validate at h
  split at h
  · cases h
  next hw =>
    cases hn : s.numSets with
    | error f => simp [hn, Failure.lift, bind, Except.bind] at h
    | ok sets =>
      simp only [hn, Failure.lift, bind, Except.bind] at h
      split at h
      · split at h
        · cases h
        next hm =>
          split at h
          · cases h
          next hl =>
            split at h
            · cases h
            next hc =>
              obtain ⟨h0, hm⟩ := not_or.mp hm
              obtain ⟨hcold, hwarm⟩ := not_or.mp hl
              exact ⟨hw, h0, not_not.mp hm, hcold, hwarm, hc⟩
      · cases h

theorem Usable.latency_pos {s : Spec} (h : s.Usable) (cold : Bool) : 0 < s.latency cold := by
  have hpos : ∀ x : UInt64, x ≠ 0 → 0 < x.toNat := fun x hx =>
    Nat.pos_of_ne_zero fun h0 => hx (UInt64.toNat_inj.mp h0)
  unfold latency
  split_ifs
  · exact hpos _ h.cold
  · exact hpos _ h.warm

theorem Usable.line_le {s : Spec} (h : s.Usable) {a : Addr} (ha : a.val < s.memorySize) :
    a.line.wordNumber + lineWords ≤ s.memoryWords := by
  have hlt : a.val.toNat < s.memorySize.toNat := UInt32.lt_iff_toNat_lt.mp ha
  have hm := h.lines
  have hl : a.line.wordNumber = a.lineNumber * lineWords := Store.wordNumber_line a
  rw [hl]
  simp only [Addr.lineNumber, memoryWords, lineSize, lineWords, wordSize] at hm ⊢
  omega

end Snooping.Spec
