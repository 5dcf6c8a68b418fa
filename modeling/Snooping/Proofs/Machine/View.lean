import Snooping.Machine.Step
import Snooping.Proofs.Cache.Answers
import Snooping.Proofs.Memory
import Snooping.Proofs.Protocol.Coherence
import Snooping.Proofs.Spec

/-!
# The protocol in a machine

What a machine is for the protocol, and what the protocol does not see because it never changes.

* **`Machine.view`**: the state of the protocol; `Machine.calm`: the same after everybody has looked
  at the bus.
* `Machine.view_putCache`, `Machine.view_putForwarder`: what one member changes.
* **`Machine.Sound`**: every member knows its number, and is in order.
* `Machine.blank_boot`, `Machine.sound_boot`: the start.
-/

namespace Snooping.Machine

variable {g : Geometry} {n : Nat}

/-! ## The state of the protocol -/

/-- **The state of the protocol.** -/
def view (m : Machine g n) : View n where
  stage i := m.caches[i].stage
  copy i := m.caches[i].copy
  jobs j := m.forwarders[j].queue.filter ForwardJob.isData
  pending := m.memory.pending
  captured := m.memory.captured
  block := m.memory.readBlock
  lands := m.memory.lands
  current := m.bus.current

/-- What was driven has been looked at. -/
def calm (m : Machine g n) : View n := { m.view with current := none }

theorem lawful_view (m : Machine g n) : m.view.Lawful where
  copy {i _ _} h := m.caches[i].copy_congr h
  block h := m.memory.readBlock_congr h
  lands {a b} h := by
    show m.memory.lands a = m.memory.lands b
    simp only [Memory.lands, h]

theorem getElem_put {α : Type} (v : Vector α n) (i j : Fin n) (x : α) :
    (v.put i x)[j] = Function.update (fun j : Fin n => v[j]) i x j := by
  by_cases hj : j = i
  · subst hj
    rw [Vector.getElem_put_self, Function.update_self]
  · rw [Vector.getElem_put_of_ne _ _ hj, Function.update_of_ne hj]

theorem map_put {α β : Type} (f : α → β) (v : Vector α n) (i : Fin n) (x : α) :
    (fun j : Fin n => f (v.put i x)[j]) = Function.update (fun j => f v[j]) i (f x) := by
  funext j
  rw [getElem_put, Function.apply_update fun _ => f]

/-- A forwarder has changed, and the bus. -/
def putForwarder (m : Machine g n) (i : Fin n) (f : Forwarder) (bus : Bus) : Machine g n :=
  { m with forwarders := m.forwarders.put i f, bus := bus }

/-- A cache has changed, and the bus. -/
def putCache (m : Machine g n) (i : Fin n) (c : Cache g) (bus : Bus) : Machine g n :=
  { m with caches := m.caches.put i c, bus := bus }

theorem view_putForwarder (m : Machine g n) (i : Fin n) (f : Forwarder) (bus : Bus) :
    (m.putForwarder i f bus).view = { m.view with
      jobs := Function.update m.view.jobs i (f.queue.filter ForwardJob.isData)
      current := bus.current } := by
  simp only [view, putForwarder]
  congr 1
  exact map_put (fun f => f.queue.filter ForwardJob.isData) m.forwarders i f

theorem view_putCache (m : Machine g n) (i : Fin n) (c : Cache g) (bus : Bus) :
    (m.putCache i c bus).view = { m.view.set i c.stage c.copy with current := bus.current } := by
  simp only [view, putCache, View.set]
  congr 1
  · exact map_put Cache.stage m.caches i c
  · exact map_put Cache.copy m.caches i c

/-! ## What never changes -/

/-- **Every member knows its number**, and is in order. -/
structure Sound (m : Machine g n) : Prop where
  number : ∀ i : Fin n, m.caches[i].id = i
  source : ∀ i : Fin n, m.forwarders[i].source = i
  tidy : ∀ i : Fin n, m.caches[i].Tidy
  /-- A forwarder sleeps only when it owes nothing. -/
  resting : ∀ i : Fin n, m.forwarders[i].parked → m.forwarders[i].queue = []
  memory : m.memory.Sound
  capacity : m.memory.store.capacity = m.spec.memoryWords

namespace Sound

variable {m m' : Machine g n} {i : Fin n}

theorem congr (h : m.Sound) (hc : m'.caches = m.caches) (hf : m'.forwarders = m.forwarders)
    (hm : m'.memory = m.memory) (hs : m'.spec = m.spec) : m'.Sound := by
  refine ⟨?_, ?_, ?_, ?_, hm ▸ h.memory, hm ▸ hs ▸ h.capacity⟩
  · rw [hc]
    exact h.number
  · rw [hf]
    exact h.source
  · rw [hc]
    exact h.tidy
  · rw [hf]
    exact h.resting

theorem putCache (h : m.Sound) {c : Cache g} (hc : c.Tidy) (hi : c.id = m.caches[i].id)
    (bus : Bus) : (m.putCache i c bus).Sound := by
  refine ⟨fun j => ?_, h.source, fun j => ?_, h.resting, h.memory, h.capacity⟩
  · show (m.caches.put i c)[j].id = j
    by_cases hj : j = i
    · subst hj
      rw [Vector.getElem_put_self, hi, h.number]
    · rw [Vector.getElem_put_of_ne _ _ hj, h.number]
  · show (m.caches.put i c)[j].Tidy
    by_cases hj : j = i
    · subst hj
      rw [Vector.getElem_put_self]
      exact hc
    · rw [Vector.getElem_put_of_ne _ _ hj]
      exact h.tidy j

theorem putForwarder (h : m.Sound) {f : Forwarder} (hf : f.source = m.forwarders[i].source)
    (hr : f.parked → f.queue = []) (bus : Bus) : (m.putForwarder i f bus).Sound := by
  refine ⟨h.number, fun j => ?_, h.tidy, fun j => ?_, h.memory, h.capacity⟩
  · show (m.forwarders.put i f)[j].source = j
    by_cases hj : j = i
    · subst hj
      rw [Vector.getElem_put_self, hf, h.source]
    · rw [Vector.getElem_put_of_ne _ _ hj, h.source]
  · show (m.forwarders.put i f)[j].parked → (m.forwarders.put i f)[j].queue = []
    by_cases hj : j = i
    · subst hj
      rw [Vector.getElem_put_self]
      exact hr
    · rw [Vector.getElem_put_of_ne _ _ hj]
      exact h.resting j

end Sound

/-! ## The start -/

theorem cache_boot (spec : Spec) (programs : Vector Program n) (i : Fin n) :
    (boot g spec programs).caches[i] = .empty g spec.maxCounter.toNat i := by
  simp [boot]

theorem forwarder_boot (spec : Spec) (programs : Vector Program n) (i : Fin n) :
    (boot g spec programs).forwarders[i] = .idle i := by
  simp [boot]

theorem core_boot (spec : Spec) (programs : Vector Program n) (i : Fin n) :
    (boot g spec programs).cores[i] = .start i programs[i] := by
  simp [boot]

theorem blank_boot (spec : Spec) (programs : Vector Program n) :
    (boot g spec programs).calm.Blank := by
  refine ⟨fun i => ?_, fun i a => ?_, fun j => ?_, rfl, rfl, fun a => ?_, rfl⟩
  · show (boot g spec programs).caches[i].stage = .idle
    rw [cache_boot]
    rfl
  · show (boot g spec programs).caches[i].copy a = _
    rw [cache_boot]
    exact Cache.copy_empty _ _ a
  · show (boot g spec programs).forwarders[j].queue.filter _ = []
    rw [forwarder_boot]
    rfl
  · exact Memory.readBlock_idle spec a

theorem sound_boot {spec : Spec} (h : spec.validate = .ok g) (programs : Vector Program n) :
    (boot g spec programs).Sound := by
  refine ⟨fun i => ?_, fun i => ?_, fun i => ?_, fun i _ => ?_,
    ⟨fun t d hs => (nomatch hs), ?_⟩, rfl⟩
  · rw [cache_boot]
    rfl
  · rw [forwarder_boot]
    rfl
  · rw [cache_boot]
    exact Cache.tidy_empty _ _
  · rw [forwarder_boot]
    rfl
  · exact (Spec.usable_of_validate h).latency_pos

end Snooping.Machine
