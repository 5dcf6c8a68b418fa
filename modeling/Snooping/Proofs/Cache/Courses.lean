import Snooping.Proofs.Cache.Losses
import Snooping.Proofs.Cache.Recency

/-!
# The course of a request

Whatever a cache does for a request, it keeps the request until it ends, and it touches no line but
that of the request, besides the ageing in a lookup.

* `Cache.underWay`: the request in progress; **`Cache.Deed.underWay`**: a turn ends it or keeps it.
* `Request.isFor`: the line that a request is about.
* **`Cache.Spares`**: the lines of others stay; `Cache.spares_tick`, `Cache.spares_observe`.
* `Cache.Deed.full`: the line of a request that has ended is the one that was just used.
-/

namespace Snooping

/-! ## Requests under way -/

/-- A write ends with the word that it has written. -/
def Completion.Written (r : Completion) : Prop :=
  ∀ a v, r.request = .write a v → r.value = v

theorem Line.serve_write {l : Line} {k : Nat} {r : Request} {a : Addr} {v : Word}
    (h : r = .write a v) : (l.serve k r).1 = v := by
  subst h
  rfl

/-- **A request is about the line** with a tag in a set. -/
def Request.isFor {g : Geometry} (r : Request) (i : Fin g.sets) (t : Nat) : Bool :=
  g.index r.addr = i && g.tag r.addr = t

namespace Cache

variable {g : Geometry}

/-- **The request in progress**, if there is one. -/
def underWay (c : Cache g) : Option Request := c.access.map Access.request

theorem underWay_of_access {c : Cache g} {a : Access g.ways} (h : c.access = some a) :
    c.underWay = some a.request := by
  rw [underWay, h, Option.map_some]

/-- **A turn ends the request in progress or keeps it.** -/
theorem Deed.underWay {c : Cache g} {bus : Bus} {now : Nat} {x : Turn g} (h : c.Deed bus now x) :
    (x.done = none ∧ x.cache.underWay = c.underWay) ∨
    ∃ r, x.done = some r ∧ c.underWay = some r.request ∧ r.cycle = now ∧ r.Written ∧
      x.cache.underWay = none := by
  have hsame : ∀ {a a' : Access g.ways} {c' : Cache g}, c.access = some a → c'.access = some a' →
      a'.request = a.request → c'.underWay = c.underWay := fun ha ha' hr => by
    rw [underWay_of_access ha, underWay_of_access ha', hr]
  cases h with
  | sleep => exact .inl ⟨rfl, rfl⟩
  | look ha => exact .inl ⟨rfl, hsame ha rfl rfl⟩
  | restart ha => exact .inl ⟨rfl, hsame ha rfl rfl⟩
  | take ha => exact .inl ⟨rfl, hsame ha rfl rfl⟩
  | yield ha => exact .inl ⟨rfl, hsame ha rfl rfl⟩
  | @serve c₁ a w ha =>
    exact .inr ⟨_, rfl, underWay_of_access ha, rfl, fun _ _ => Line.serve_write, rfl⟩
  | fetch ha _ _ _ hr => exact .inl ⟨rfl, hsame ha rfl hr⟩
  | ask ha _ _ _ hr => exact .inl ⟨rfl, hsame ha rfl hr⟩
  | evict ha _ _ hr => exact .inl ⟨rfl, hsame ha rfl hr⟩
  | hold ha _ hr => exact .inl ⟨rfl, hsame ha rfl hr⟩

theorem Fades.underWay {c c' : Cache g} (h : c.Fades c') : c'.underWay = c.underWay := by
  have he := congrArg (Option.map Prod.fst) h.access
  rwa [Option.map_map, Option.map_map] at he

theorem Heeds.underWay {c c' : Cache g} (h : c.Heeds c') : c'.underWay = c.underWay := by
  cases h with
  | ignore => rfl
  | contend => exact c.fades_contend.underWay
  | written ha => exact (underWay_of_access ha).symm
  | install ha => exact (underWay_of_access ha).symm
  | restart ha => exact (underWay_of_access ha).symm

/-! ## The lines of others -/

/-- **The lines of others stay**: a line that the request is not about is as it was. -/
def Spares (c : Cache g) (r : Request) (c' : Cache g) : Prop :=
  ∀ i v, (c'.line i v).isLive → r.isFor i (c'.line i v).tag = false → c'.line i v = c.line i v

theorem Spares.refl (c : Cache g) (r : Request) : c.Spares r c := fun _ _ _ _ => rfl

namespace Spares

variable {c₀ c c' : Cache g} {r : Request} (h : c₀.Spares r c) {a : Access g.ways}
  (hr : a.request = r) {w : Fin g.ways}

include h

theorem of_sets (hs : c'.sets = c.sets) : c₀.Spares r c' := by
  intro i v hl hn
  have he : c'.line i v = c.line i v := by rw [line, hs, line]
  rw [he] at hl hn ⊢
  exact h i v hl hn

theorem setLine {l : Line} (hl : l.tag = g.tag r.addr) :
    c₀.Spares r (c.setLine (g.index r.addr) w l) := by
  intro i v hlive hn
  rw [line_setLine] at hlive hn ⊢
  split_ifs at hlive hn ⊢ with hv
  · rw [Request.isFor, hv.1, hl] at hn
    simp at hn
  · exact h i v hlive hn

include hr

theorem complete (ht : (c.line (g.index a.request.addr) w).tag = g.tag a.request.addr) (bus : Bus)
    (now : Nat) : c₀.Spares r (c.complete a w bus now).cache := by
  subst hr
  have hl : ((c.line (g.index a.request.addr) w).serve c.maxCounter a.request).2.tag =
      g.tag a.request.addr := by
    rw [← ht]
    cases a.request <;> rfl
  exact (h.setLine hl).of_sets rfl

omit hr in
theorem upgrade (bus : Bus) : c₀.Spares r (c.upgrade a w bus).cache := by
  unfold Cache.upgrade
  dsimp only
  split_ifs <;> exact h.of_sets rfl

theorem useHit (bus : Bus) (now : Nat) : c₀.Spares r (c.useHit a w bus now).cache := by
  subst hr
  have hused (ho : (c.line (g.index a.request.addr) w).offers (g.tag a.request.addr)) :
      c₀.Spares a.request (c.setLine (g.index a.request.addr) w
        { c.line (g.index a.request.addr) w with counter := c.maxCounter }) :=
    h.setLine (offers_iff.mp ho).2
  unfold Cache.useHit
  dsimp only
  split_ifs with ho
  · exact (hused ho).upgrade bus
  · refine (hused ho).complete rfl ?_ bus now
    rw [line_setLine_self]
    exact (offers_iff.mp ho).2
  · exact h.of_sets rfl

theorem useInstalled (bus : Bus) (now : Nat) : c₀.Spares r (c.useInstalled a w bus now).cache := by
  unfold Cache.useInstalled
  dsimp only
  split_ifs with ho
  · exact h.upgrade bus
  · exact h.complete hr (offers_iff.mp ho).2 bus now
  · exact h.of_sets rfl

theorem fill (bus : Bus) : c₀.Spares r (c.fill a w bus).cache := by
  subst hr
  have hmarked : c₀.Spares a.request (c.marked a.request.addr w) := by
    unfold Cache.marked
    split_ifs
    · exact h
    · exact h.setLine rfl
  obtain ⟨a', f, -, ⟨-, he⟩ | ⟨-, he⟩⟩ := c.fill_cases a w bus
  · rw [he]
    exact hmarked.of_sets rfl
  · rw [he]
    exact hmarked.of_sets rfl

theorem writeBack {u : Addr} (bus : Bus) : c₀.Spares r (c.writeBack a w u bus).cache := by
  unfold Cache.writeBack
  dsimp only
  split_ifs
  · exact h.of_sets rfl
  · exact h.of_sets rfl
  · exact h.fill hr bus

theorem makeRoom (bus : Bus) : c₀.Spares r (c.makeRoom a w bus).cache := by
  unfold Cache.makeRoom
  dsimp only
  split_ifs
  · exact writeBack (a := { a with missed := true }) h hr bus
  · exact fill (a := { a with missed := true }) h hr bus

end Spares

/-- **A turn after the lookup** touches no line but that of the request. -/
theorem spares_tick {c : Cache g} (h : c.Tidy) {a : Access g.ways} (ha : c.access = some a)
    (hp : a.phase ≠ .lookup) (bus : Bus) (now : Nat) :
    c.Spares a.request (c.tick bus now).cache := by
  have hs := Spares.refl c a.request
  have hf := h.fits a ha
  unfold Fits at hf
  unfold tick
  rw [ha]
  dsimp only
  cases hq : a.phase <;> simp only [hq] at hf ⊢
  case lookup => exact absurd hq hp
  case hit w => exact hs.useHit rfl bus now
  case miss w => exact hs.makeRoom rfl bus
  case upgrade w => exact hs.upgrade bus
  case promote w => exact hs.complete rfl hf.1.1 bus now
  case writeBack w u => exact hs.writeBack rfl bus
  case fill w => exact hs.fill rfl bus
  case installed w => exact hs.useInstalled rfl bus now
  case awaitWriteBack | awaitFill => exact hs

theorem spares_observe {c : Cache g} {a : Access g.ways} (ha : c.access = some a) (bus : Bus) :
    c.Spares a.request (c.observe bus).2 := by
  have hs := Spares.refl c a.request
  have hx := c.heeds_observe bus
  generalize (c.observe bus).2 = c' at hx
  cases hx with
  | ignore => exact hs
  | contend => exact hs.of_sets rfl
  | written => exact hs.of_sets rfl
  | @install b w l hb hp ho =>
    cases ha.symm.trans hb
    exact (hs.setLine (offers_iff.mp ho).2).of_sets rfl
  | restart => exact hs.of_sets rfl

/-- **The line of a request that has ended** has the counter of a line that was just used, and the
request was past its lookup. -/
theorem Deed.full {c : Cache g} (h : c.Tidy) {bus : Bus} {now : Nat} {x : Turn g}
    (hd : c.Deed bus now x) {k : Completion} (hk : x.done = some k) :
    (∃ a, c.access = some a ∧ a.request = k.request ∧ a.phase ≠ .lookup) ∧ ∀ i v,
      (x.cache.line i v).isLive → k.request.isFor i (x.cache.line i v).tag →
        (x.cache.line i v).counter = c.maxCounter := by
  cases hd with
  | sleep | look | restart | take | yield | fetch | ask | evict | hold => cases hk
  | @serve c₁ a w ha hp hkept =>
    cases hk
    have hplace : c.PlaceOf a.request.addr w := by
      have hf := h.fits a ha
      unfold Fits at hf
      obtain hp | hp | hp := hp <;> simp only [hp] at hf
      · exact hf
      · exact hf.1
      · exact hf.1
    refine ⟨⟨a, ha, rfl, ?_⟩, fun i v hl hfor => ?_⟩
    · obtain hp | hp | hp := hp <;> rw [hp] <;> simp
    · have hline : (c₁.complete a w bus now).cache.line i v = _ := c₁.line_setLine _ i w v _
      obtain ⟨hi, ht⟩ : g.index a.request.addr = i ∧ g.tag a.request.addr = _ := by
        simpa [Request.isFor] using hfor
      rw [hline] at hl ht ⊢
      split_ifs at hl ht ⊢ with hv
      · rw [← hkept.maxCounter]
        cases a.request <;> rfl
      · -- Another way that has the line would have had it before.
        subst hi
        have hcarries : (c.line (g.index a.request.addr) v).carries (g.tag a.request.addr) := by
          rw [← hkept.lines.carries]
          exact carries_iff.mpr ⟨hl, ht.symm⟩
        exact absurd ⟨rfl, (hplace.2 v hcarries).symm⟩ hv

end Cache

end Snooping
