import Snooping.Proofs.Machine.Runs

/-!
# What the check finds

The check goes through the caches in order and stops at the first contradiction. It stops only if
there is one, which it names with those who take part in it, and it overlooks none. This does not
depend on how the caches came to their lines.

* **`Cache.HoldsAlone`**: a cache has a line that no other cache may have.
* `Holders.Record`: what is known once some caches were checked.
* `Holders.claim_cases`, `Holders.addCache_cases`, `Holders.foldlM_cases`: one line, one cache, all
  of them.
* **`Machine.Consistent`**, **`Machine.Shows`**: there is no contradiction, or there is this one.
* **`Machine.check_exact`**: the check tells the one from the other.
-/

namespace Snooping

variable {g : Geometry} {n : Nat}

theorem LineState.isSole_iff {s : LineState} : s.isSole ↔ s = .modified ∨ s = .exclusive := by
  cases s <;> decide

namespace Cache

variable {c : Cache g} {a : Addr}

/-- The cache has a line that no other cache may have. -/
def HoldsAlone (c : Cache g) (a : Addr) : Prop :=
  ∃ i w, ((c.line i w).state = .modified ∨ (c.line i w).state = .exclusive) ∧
    g.addrAt i (c.line i w).tag = a

theorem holdsAlone_iff : c.HoldsAlone a ↔ ∃ x, (a, x) ∈ c.resident ∧ x.state.isSole := by
  constructor
  · rintro ⟨i, w, hs, ha⟩
    have hlive : (c.line i w).isLive := isLive_iff.mpr fun e => by
      rw [e] at hs
      exact hs.elim LineState.noConfusion LineState.noConfusion
    exact ⟨c.line i w, mem_resident.mpr ⟨i, w, rfl, hlive, ha⟩, LineState.isSole_iff.mpr hs⟩
  · rintro ⟨x, hx, hs⟩
    obtain ⟨i, w, rfl, -, ha⟩ := mem_resident.mp hx
    exact ⟨i, w, LineState.isSole_iff.mp hs, ha⟩

theorem mem_soleLines : a ∈ c.soleLines ↔ c.HoldsAlone a := by
  simp only [soleLines, List.mem_map, List.mem_filter, holdsAlone_iff]
  constructor
  · rintro ⟨⟨_, x⟩, hx, rfl⟩
    exact ⟨x, hx⟩
  · rintro ⟨x, hx⟩
    exact ⟨⟨a, x⟩, hx, rfl⟩

theorem nodup_soleLines (hd : c.Distinct) (hb : c.Bounded) : c.soleLines.Nodup :=
  List.pairwise_map.mpr ((pairwise_resident hd hb).filter _)

end Cache

/-! ## Contradictions between some caches -/

/-- Some caches in order show a violation. -/
def Violation.Shown (cs : List (Cache g)) : Violation → Prop
  | duplicate core a => ∃ c ∈ cs, c.id = core ∧ c.HoldsTwice a
  | exclusiveTwice first second a => ∃ c d, [c, d].Sublist cs ∧ c.id = first ∧ d.id = second ∧
      c.HoldsAlone a ∧ d.HoldsAlone a

theorem Violation.Shown.mono {cs cs' : List (Cache g)} (hs : cs.Sublist cs') {v : Violation}
    (h : v.Shown cs) : v.Shown cs' := by
  cases v with
  | duplicate =>
    obtain ⟨c, hc, h⟩ := h
    exact ⟨c, hs.subset hc, h⟩
  | exclusiveTwice =>
    obtain ⟨c, d, hcd, h⟩ := h
    exact ⟨c, d, hcd.trans hs, h⟩

namespace Holders

variable {hs : Holders}

/-- **Some caches were checked** and nothing was found: the holders are those that have their line
alone. -/
structure Record (hs : Holders) (cs : List (Cache g)) : Prop where
  distinct : ∀ c ∈ cs, c.Distinct
  apart : cs.Pairwise fun c d => ∀ a, c.HoldsAlone a → ¬ d.HoldsAlone a
  holder : ∀ a core, hs.lookup a = some core → ∃ c ∈ cs, c.id = core ∧ c.HoldsAlone a
  held : ∀ c ∈ cs, ∀ a, c.HoldsAlone a → hs.lookup a ≠ none

theorem lookup_cons (hs : Holders) (a b : Addr) (core : Nat) :
    List.lookup b ((a, core) :: hs) = if b = a then some core else hs.lookup b := by
  rw [List.lookup_cons]
  split_ifs with h
  · rw [h, beq_self_eq_true]
  · rw [beq_false_of_ne h]

/-- Lines are claimed one after the other, up to the first one that has a holder. -/
theorem claim_cases (hs : Holders) (core : Nat) {as : List Addr} (hn : as.Nodup) :
    (∃ hs', claim core hs as = .ok hs' ∧ (∀ a ∈ as, hs.lookup a = none) ∧
      ∀ a, hs'.lookup a = if a ∈ as then some core else hs.lookup a) ∨
    ∃ a ∈ as, ∃ other, hs.lookup a = some other ∧
      claim core hs as = .error (.exclusiveTwice other core a) := by
  induction as generalizing hs with
  | nil => exact .inl ⟨hs, rfl, nofun, fun a => (if_neg List.not_mem_nil).symm⟩
  | cons a as ih =>
    obtain ⟨ha, hn⟩ := List.nodup_cons.mp hn
    cases hl : hs.lookup a with
    | some other =>
      refine .inr ⟨a, List.mem_cons_self, other, hl, ?_⟩
      rw [claim, hl]
    | none =>
      have hclaim : claim core hs (a :: as) = claim core ((a, core) :: hs) as := by
        rw [claim, hl]
      -- The lines that are left differ from the one that was just claimed.
      have hkeep : ∀ b ∈ as, List.lookup b ((a, core) :: hs) = hs.lookup b := fun b hb =>
        (lookup_cons hs a b core).trans (if_neg fun e : b = a => ha (e ▸ hb))
      obtain ⟨hs', he, hfree, hlook⟩ | ⟨b, hb, other, hl', he⟩ := ih ((a, core) :: hs) hn
      · refine .inl ⟨hs', hclaim.trans he, List.forall_mem_cons.mpr ⟨hl, fun b hb => ?_⟩,
          fun b => ?_⟩
        · rw [← hkeep b hb]
          exact hfree b hb
        · rw [hlook b, lookup_cons]
          by_cases hb : b ∈ as <;> by_cases hba : b = a <;> simp [hb, hba]
      · refine .inr ⟨b, List.mem_cons_of_mem _ hb, other, ?_, hclaim.trans he⟩
        rw [← hkeep b hb]
        exact hl'

theorem Record.concat {cs : List (Cache g)} (h : hs.Record cs) {c : Cache g} {hs' : Holders}
    (hd : c.Distinct) (hfree : ∀ a ∈ c.soleLines, hs.lookup a = none)
    (hl : ∀ a, hs'.lookup a = if a ∈ c.soleLines then some c.id else hs.lookup a) :
    hs'.Record (cs ++ [c]) := by
  have hin : ∀ {a}, c.HoldsAlone a → a ∈ c.soleLines := Cache.mem_soleLines.mpr
  refine ⟨fun d hm => ?_, ?_, fun a core ha => ?_, fun d hm a ha => ?_⟩
  · obtain hm | hm := List.mem_append.mp hm
    · exact h.distinct d hm
    · exact List.mem_singleton.mp hm ▸ hd
  · refine List.pairwise_append.mpr
      ⟨h.apart, List.pairwise_singleton _ _, fun d hm e he a ha hc => ?_⟩
    obtain rfl := List.mem_singleton.mp he
    exact h.held d hm a ha (hfree a (hin hc))
  · rw [hl] at ha
    split_ifs at ha with hs
    · cases ha
      exact ⟨c, List.mem_append_right _ List.mem_cons_self, rfl, Cache.mem_soleLines.mp hs⟩
    · obtain ⟨d, hm, hd⟩ := h.holder a core ha
      exact ⟨d, List.mem_append_left _ hm, hd⟩
  · rw [hl]
    split_ifs with hs
    · exact Option.some_ne_none _
    · obtain hm | hm := List.mem_append.mp hm
      · exact h.held d hm a ha
      · obtain rfl := List.mem_singleton.mp hm
        exact absurd (hin ha) hs

/-- **One more cache is checked.** -/
theorem addCache_cases {cs : List (Cache g)} (h : hs.Record cs) {c : Cache g} (hb : c.Bounded) :
    (∃ hs', hs.addCache c = .ok hs' ∧ hs'.Record (cs ++ [c])) ∨
      ∃ v, hs.addCache c = .error v ∧ v.Shown (cs ++ [c]) := by
  cases hd : c.duplicate? with
  | some a =>
    refine .inr ⟨.duplicate c.id a, by rw [addCache, hd], c, ?_, rfl, ?_⟩
    · exact List.mem_append_right _ List.mem_cons_self
    · exact Cache.holdsTwice_of_duplicate? hd
  | none =>
    have hdistinct := Cache.distinct_of_duplicate? hd
    have hadd : hs.addCache c = hs.claim c.id c.soleLines := by rw [addCache, hd]
    obtain ⟨hs', he, hfree, hlook⟩ | ⟨a, ha, other, hl, he⟩ :=
      claim_cases hs c.id (Cache.nodup_soleLines hdistinct hb)
    · exact .inl ⟨hs', hadd.trans he, h.concat hdistinct hfree hlook⟩
    · obtain ⟨d, hmem, hid, hd⟩ := h.holder a other hl
      refine .inr ⟨_, hadd.trans he, d, c, ?_, hid, rfl, hd, Cache.mem_soleLines.mp ha⟩
      exact (List.singleton_sublist.mpr hmem).append (List.Sublist.refl [c])

/-- **All caches are checked in order.** -/
theorem foldlM_cases {cs ds : List (Cache g)} (h : hs.Record cs) (hb : ∀ d ∈ ds, d.Bounded) :
    (∃ hs', ds.foldlM addCache hs = .ok hs' ∧ hs'.Record (cs ++ ds)) ∨
      ∃ v, ds.foldlM addCache hs = .error v ∧ v.Shown (cs ++ ds) := by
  induction ds generalizing hs cs with
  | nil => exact .inl ⟨hs, rfl, by rwa [List.append_nil]⟩
  | cons d ds ih =>
    have happ : cs ++ d :: ds = (cs ++ [d]) ++ ds := by simp
    obtain ⟨hs', he, hr⟩ | ⟨v, he, hv⟩ := addCache_cases h (hb d List.mem_cons_self)
    · rw [List.foldlM_cons, he, happ]
      exact ih hr fun e hm => hb e (List.mem_cons_of_mem _ hm)
    · refine .inr ⟨v, ?_, ?_⟩
      · rw [List.foldlM_cons, he]
        rfl
      · rw [happ]
        exact hv.mono (List.sublist_append_left _ _)

end Holders

namespace Machine

/-- **The caches do not contradict each other**: none has a line in two ways, and no two have one
line alone. -/
structure Consistent (m : Machine g n) : Prop where
  distinct : ∀ k : Fin n, m.caches[k].Distinct
  apart : ∀ k l : Fin n, k ≠ l → ∀ a, m.caches[k].HoldsAlone a → ¬ m.caches[l].HoldsAlone a

/-- **The caches show a violation**: it names those that have the line, in their order. -/
def Shows (m : Machine g n) : Violation → Prop
  | .duplicate core a => ∃ k : Fin n, m.caches[k].id = core ∧ m.caches[k].HoldsTwice a
  | .exclusiveTwice first second a => ∃ k l : Fin n, k < l ∧ m.caches[k].id = first ∧
      m.caches[l].id = second ∧ m.caches[k].HoldsAlone a ∧ m.caches[l].HoldsAlone a

variable {m : Machine g n} {v : Violation}

theorem Shows.not_consistent (h : m.Shows v) : ¬ m.Consistent := by
  intro hc
  cases v with
  | duplicate =>
    obtain ⟨k, -, hk⟩ := h
    exact hk.not_distinct (hc.distinct k)
  | exclusiveTwice _ _ a =>
    obtain ⟨k, l, hlt, -, -, hk, hl⟩ := h
    exact hc.apart k l (Fin.ne_of_lt hlt) a hk hl

theorem exists_places {c d : Cache g} (h : [c, d].Sublist m.caches.toList) :
    ∃ k l : Fin n, k < l ∧ m.caches[k] = c ∧ m.caches[l] = d := by
  have hall : m.caches.toList.Pairwise fun c d =>
      ∃ k l : Fin n, k < l ∧ m.caches[k] = c ∧ m.caches[l] = d := by
    refine List.pairwise_iff_getElem.mpr fun i j hi hj hlt => ?_
    rw [Vector.length_toList] at hi hj
    exact ⟨⟨i, hi⟩, ⟨j, hj⟩, hlt, (Vector.getElem_toList _).symm, (Vector.getElem_toList _).symm⟩
  exact List.pairwise_iff_forall_sublist.mp hall h

theorem shows_of_shown (h : v.Shown m.caches.toList) : m.Shows v := by
  cases v with
  | duplicate =>
    obtain ⟨c, hc, h⟩ := h
    obtain ⟨k, rfl⟩ := Vector.mem_iff_place.mp (Vector.mem_toList_iff.mp hc)
    exact ⟨k, h⟩
  | exclusiveTwice =>
    obtain ⟨c, d, hcd, h⟩ := h
    obtain ⟨k, l, hlt, rfl, rfl⟩ := exists_places hcd
    exact ⟨k, l, hlt, h⟩

theorem consistent_of_record {hs : Holders} (h : hs.Record m.caches.toList) : m.Consistent := by
  have hlt : ∀ k l : Fin n, k < l → ∀ a, m.caches[k].HoldsAlone a → ¬ m.caches[l].HoldsAlone a :=
    fun k l hkl => List.pairwise_iff_getElem.mp h.apart k l (by simp) (by simp) hkl
  refine ⟨fun k => h.distinct _ ?_, fun k l hkl a hk hl => ?_⟩
  · exact Vector.mem_toList_iff.mpr (Vector.mem_iff_place.mpr ⟨k, rfl⟩)
  · obtain hkl | hlk := Fin.lt_or_lt_of_ne hkl
    · exact hlt k l hkl a hk hl
    · exact hlt l k hlk a hl hk

/-- **Either the check finds nothing and there is nothing, or what it finds is there.** -/
theorem violation?_cases (hb : ∀ k : Fin n, m.caches[k].Bounded) :
    (m.violation? = none ∧ m.Consistent) ∨ ∃ v, m.violation? = some v ∧ m.Shows v := by
  have hstart : Holders.Record (g := g) [] [] := ⟨nofun, List.Pairwise.nil, nofun, nofun⟩
  have hbounded : ∀ c ∈ m.caches.toList, c.Bounded := fun c hc => by
    obtain ⟨k, rfl⟩ := Vector.mem_iff_place.mp (Vector.mem_toList_iff.mp hc)
    exact hb k
  obtain ⟨hs, he, hr⟩ | ⟨v, he, hv⟩ := Holders.foldlM_cases hstart hbounded
  · refine .inl ⟨?_, consistent_of_record hr⟩
    rw [violation?, he]
  · refine .inr ⟨v, ?_, shows_of_shown hv⟩
    rw [violation?, he]

/-- **The check is exact.** However the caches have come to their lines, as long as every tag
belongs to an address, it passes if they do not contradict each other and otherwise names a
contradiction that they show. -/
theorem check_exact (h : ∀ (k : Fin n) i w, (m.caches[k].line i w).isLive →
      (m.caches[k].line i w).tag < 2 ^ (27 - g.indexBits)) :
    (m.checkCoherence = .ok () ↔ m.Consistent) ∧
    ∀ e, m.checkCoherence = .error e → ∃ v, e = .incoherent m.now v ∧ m.Shows v := by
  have hb : ∀ k : Fin n, m.caches[k].Bounded := fun k i w hl => Geometry.bound_iff.mpr (h k i w hl)
  obtain ⟨hv, hc⟩ | ⟨v, hv, hs⟩ := violation?_cases hb
  · have hok : m.checkCoherence = .ok () := by rw [checkCoherence, hv]
    exact ⟨iff_of_true hok hc, fun e he => nomatch hok.symm.trans he⟩
  · have herror : m.checkCoherence = .error (.incoherent m.now v) := by rw [checkCoherence, hv]
    refine ⟨iff_of_false (fun hok => nomatch herror.symm.trans hok) hs.not_consistent,
      fun e he => ⟨v, ?_, hs⟩⟩
    exact (Except.error.inj (herror.symm.trans he)).symm

/-- The machine with a line put into one way of every cache. -/
def putEverywhere (m : Machine g n) (i : Fin g.sets) (w : Fin g.ways) (l : Line) : Machine g n :=
  { m with caches := m.caches.map (·.setLine i w l) }

/-- No run makes two caches have one line modified. The check names both. -/
theorem check_exact_rivals :
    ∃ m, m = tiny.putEverywhere ⟨1, by decide⟩ 0 ⟨.modified, 2, 4, Block.zero⟩ ∧
      (∀ (k : Fin tinyPrograms.length) i w, (m.caches[k].line i w).isLive →
        (m.caches[k].line i w).tag < 2 ^ 26) ∧
      m.checkCoherence = .error (.incoherent m.now (.exclusiveTwice 0 1 ⟨160⟩)) ∧
      m.Shows (.exclusiveTwice 0 1 ⟨160⟩) := by
  obtain ⟨m, hm⟩ : ∃ m, m = tiny.putEverywhere ⟨1, by decide⟩ 0 ⟨.modified, 2, 4, Block.zero⟩ :=
    ⟨_, rfl⟩
  have htag : ∀ (k : Fin tinyPrograms.length) i w, (m.caches[k].line i w).isLive →
      (m.caches[k].line i w).tag < 2 ^ 26 := by
    rw [hm]
    decide +kernel
  have hv : m.violation? = some (.exclusiveTwice 0 1 ⟨160⟩) := by
    rw [hm]
    decide +kernel
  have herror : m.checkCoherence = .error (.incoherent m.now (.exclusiveTwice 0 1 ⟨160⟩)) := by
    rw [checkCoherence, hv]
  obtain ⟨v, he, hs⟩ := (check_exact htag).2 _ herror
  cases he
  exact ⟨m, hm, htag, herror, hs⟩

end Machine

end Snooping
