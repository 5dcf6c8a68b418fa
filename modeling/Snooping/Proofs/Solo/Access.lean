import Snooping.Cache.Snoop
import Snooping.Cache.Tick
import Snooping.Proofs.Solo.Mirror

/-!
# One access of a cache that has the bus for itself

A cache whose requests are granted at once and answered by memory alone never loses a line. It
serves a hit right away, asks for a missing line once, and before that writes a line back if the
ideal cache does.

* `Cache.Serving.complete`, `Cache.Serving.fill`, `Cache.Serving.writeBack`: the turns of such a
  cache.
* **`Cache.Completes`**: the cache completes its request after a number of transfers.
* **`Cache.Mirrors.completes`**: an access of a cache that mirrors the ideal one.
-/

namespace Snooping

variable {g : Geometry}

theorem Line.serve_snd (l : Line) (max : Nat) (r : Request) : (l.serve max r).2.tag = l.tag ∧
    (l.serve max r).2.counter = max ∧
    (l.serve max r).2.state = if r.isWrite then .modified else l.state := by
  cases r <;> exact ⟨rfl, rfl, rfl⟩

theorem Bus.coreRequest_of_grants {b : Bus} (h : b.grants .core) (core : Nat) (a : Addr) (f : Func)
    (d : Option Block) : b.coreRequest core a f d =
      (true, b.drive ⟨core, .cache core, a.line, f, d⟩) :=
  if_pos h

/-- The answer of memory to a request. -/
def Transfer.reply (u : Transfer) (d : Option Block) : Transfer :=
  ⟨u.requester, .memory, u.addr.line, .response, d⟩

theorem Bus.answerFor_reply {b : Bus} {u : Transfer} {d : Option Block} {a : Addr}
    (h : b.current = some (u.reply d)) (ha : u.addr.line = a.line) :
    b.answerFor u.requester a = some (u.reply d) := by
  simp [answerFor, h, Option.filter, Transfer.reply, ha, Func.isAnswer]

namespace Cache

variable {c c' : Cache g} {r : Request} {w : Fin g.ways}

/-! ## Turns -/

section Lookup

variable (c) (found : Option (Fin g.ways)) (p : Phase g.ways)

/-- The cache once it has looked a line up. -/
def lookedUp (r : Request) : Cache g :=
  { c with
    sets := c.sets.put (g.index r.addr) (c.sets[g.index r.addr].age found)
    access := some ⟨r, false, false, p⟩ }

theorem tick_start (r : Request) (b : Bus) (t : Nat) :
    ({ c with access := some (.start r) } : Cache g).tick b t =
      (c.lookedUp (c.sets[g.index r.addr].find? (g.tag r.addr))
        (match c.sets[g.index r.addr].find? (g.tag r.addr) with
          | some w => .hit w
          | none => .miss ((c.sets[g.index r.addr].age none).victim g.ways_pos)) r).goOn b := by
  rw [tick]
  dsimp only [Access.start, lookUp]
  cases c.sets[g.index r.addr].find? (g.tag r.addr) <;> rfl

theorem line_lookedUp (r : Request) (w : Fin g.ways) :
    (c.lookedUp found p r).line (g.index r.addr) w =
      if found = some w then c.line (g.index r.addr) w else (c.line (g.index r.addr) w).aged := by
  rw [line, lookedUp, Vector.getElem_put_self, LineSet.getElem_age]
  rfl

theorem serving_lookedUp (r : Request) {w : Fin g.ways} (hf : ∀ v, v ≠ w → found ≠ some v) :
    c.Serving r w (c.lookedUp found p r) where
  id := rfl
  maxCounter := rfl
  aged v hne := by rw [line_lookedUp, if_neg (hf v hne)]
  same j hj := Vector.getElem_put_of_ne _ _ hj

end Lookup

namespace Serving

variable (h : c.Serving r w c') (b : Bus) (t : Nat)
include h

theorem congr {c'' : Cache g} (hs : c''.sets = c'.sets) (hid : c''.id = c'.id)
    (hm : c''.maxCounter = c'.maxCounter) : c.Serving r w c'' where
  id := hid.trans h.id
  maxCounter := hm.trans h.maxCounter
  aged v hv := by simpa only [line, hs] using h.aged v hv
  same i hi := by simpa only [hs] using h.same i hi

theorem setLine (l : Line) : c.Serving r w (c'.setLine (g.index r.addr) w l) where
  id := h.id
  maxCounter := h.maxCounter
  aged v hv := by
    rw [line_setLine_of_ne _ _ fun he => hv (Prod.mk.inj he).2.symm]
    exact h.aged v hv
  same i hi := by
    rw [Cache.setLine, Vector.getElem_put_of_ne _ _ hi]
    exact h.same i hi

theorem complete (missed contended : Bool) (p : Phase g.ways) : ∃ v c'',
    c'.complete ⟨r, missed, contended, p⟩ w b t = ⟨.park, some ⟨r, v, !missed, t⟩, c'', b⟩ ∧
    c.Serving r w c'' ∧ c''.access = none ∧
    c''.line (g.index r.addr) w = ((c'.line (g.index r.addr) w).serve c'.maxCounter r).2 ∧
    c''.stats.writeBacks = c'.stats.writeBacks := by
  refine ⟨_, _, rfl, (h.setLine _).congr rfl rfl rfl, rfl, line_setLine_self _ _ _ _, ?_⟩
  cases r <;> cases missed <;> rfl

theorem fill (missed contended : Bool) (p : Phase g.ways) (hg : b.grants .core)
    (hl : (c'.line (g.index r.addr) w).state ≠ .requested) : ∃ c'',
    c'.fill ⟨r, missed, contended, p⟩ w b =
      c''.sleep (b.drive ⟨c'.id, .cache c'.id, r.addr.line, .read, none⟩) ∧
    c.Serving r w c'' ∧ c''.access = some ⟨r, missed, false, .awaitFill w⟩ ∧
    c''.line (g.index r.addr) w = ⟨.requested, g.tag r.addr, c'.maxCounter, Block.zero⟩ ∧
    c''.stats.writeBacks = c'.stats.writeBacks := by
  have ha : (c'.line (g.index r.addr) w).awaits (g.tag r.addr) = false := by
    simp [Line.awaits, hl]
  have hr : b.read c'.id r.addr =
      (true, b.drive ⟨c'.id, .cache c'.id, r.addr.line, .read, none⟩) :=
    Bus.coreRequest_of_grants hg _ _ _ _
  refine ⟨((c'.setLine (g.index r.addr) w
      ⟨.requested, g.tag r.addr, c'.maxCounter, Block.zero⟩).enter ⟨r, missed, false, p⟩
      (.awaitFill w)).count fun s => { s with busAcquisitions := s.busAcquisitions + 1 }, ?_,
    (h.setLine _).congr rfl rfl rfl, rfl, line_setLine_self _ _ _ _, rfl⟩
  simp only [Cache.fill, ha, Bool.false_eq_true, if_false]
  rw [show (c'.setLine (g.index r.addr) w
    ⟨.requested, g.tag r.addr, c'.maxCounter, Block.zero⟩).id = c'.id from rfl, hr]
  rfl

theorem writeBack (missed contended : Bool) (p : Phase g.ways) (hg : b.grants .core)
    (hl : (c'.line (g.index r.addr) w).state.isDirty) {victim : Addr}
    (hv : g.addrAt (g.index r.addr) (c'.line (g.index r.addr) w).tag = victim) : ∃ c'',
    c'.writeBack ⟨r, missed, contended, p⟩ w victim b =
      c''.sleep (b.drive ⟨c'.id, .cache c'.id, victim.line, .write,
        some (c'.line (g.index r.addr) w).data⟩) ∧
    c.Serving r w c'' ∧ c''.access = some ⟨r, missed, contended, .awaitWriteBack w victim⟩ ∧
    c''.line (g.index r.addr) w = c'.line (g.index r.addr) w ∧
    c''.stats.writeBacks = c'.stats.writeBacks + 1 := by
  have hr : b.write c'.id victim (c'.line (g.index r.addr) w).data =
      (true, b.drive ⟨c'.id, .cache c'.id, victim.line, .write,
        some (c'.line (g.index r.addr) w).data⟩) :=
    Bus.coreRequest_of_grants hg _ _ _ _
  refine ⟨(c'.enter ⟨r, missed, contended, p⟩ (.awaitWriteBack w victim)).count fun s =>
    { s with writeBacks := s.writeBacks + 1, busAcquisitions := s.busAcquisitions + 1 }, ?_,
    h.congr rfl rfl rfl, rfl, rfl, rfl⟩
  rw [Cache.writeBack]
  dsimp only
  rw [if_pos ⟨hl, hv⟩, hr]
  rfl

theorem useHit (missed contended : Bool) (p : Phase g.ways)
    (ho : (c'.line (g.index r.addr) w).offers (g.tag r.addr))
    (hl : (c'.line (g.index r.addr) w).state.isSole) : ∃ v c'',
    c'.useHit ⟨r, missed, contended, p⟩ w b t = ⟨.park, some ⟨r, v, !missed, t⟩, c'', b⟩ ∧
    c.Serving r w c'' ∧ c''.access = none ∧
    c''.line (g.index r.addr) w = ((c'.line (g.index r.addr) w).serve c'.maxCounter r).2 ∧
    c''.stats.writeBacks = c'.stats.writeBacks := by
  obtain ⟨v, c'', ht, hs, ha, hline, hstats⟩ := (h.setLine { c'.line (g.index r.addr) w with
    counter := c'.maxCounter }).complete b t missed contended p
  refine ⟨v, c'', ?_, hs, ha, ?_, hstats⟩
  · rw [Cache.useHit]
    dsimp only
    rw [if_pos ho, hl, Bool.not_true, Bool.and_false, if_neg Bool.false_ne_true]
    exact ht
  · rw [hline, line_setLine_self]
    cases r <;> rfl

theorem useInstalled (missed contended : Bool) (p : Phase g.ways)
    (ho : (c'.line (g.index r.addr) w).offers (g.tag r.addr))
    (hl : (c'.line (g.index r.addr) w).state ≠ .shared) : ∃ v c'',
    c'.useInstalled ⟨r, missed, contended, p⟩ w b t = ⟨.park, some ⟨r, v, !missed, t⟩, c'', b⟩ ∧
    c.Serving r w c'' ∧ c''.access = none ∧
    c''.line (g.index r.addr) w = ((c'.line (g.index r.addr) w).serve c'.maxCounter r).2 ∧
    c''.stats.writeBacks = c'.stats.writeBacks := by
  obtain ⟨v, c'', ht, hs⟩ := h.complete b t missed contended p
  refine ⟨v, c'', ?_, hs⟩
  rw [Cache.useInstalled]
  dsimp only
  rw [if_pos ho, decide_eq_false hl, Bool.and_false, if_neg Bool.false_ne_true]
  exact ht

theorem install (missed : Bool) {u : Transfer} {d : Option Block}
    (hu : b.current = some (u.reply d)) (hr : u.requester = c'.id)
    (ha : u.addr.line = r.addr.line) (hb : b.shared = false)
    (hc : c'.access = some ⟨r, missed, false, .awaitFill w⟩)
    (hl : (c'.line (g.index r.addr) w).awaits (g.tag r.addr)) :
    (c'.observe b).1 = true ∧ c.Serving r w (c'.observe b).2 ∧
    (c'.observe b).2.access = some ⟨r, missed, false, .installed w⟩ ∧
    (c'.observe b).2.line (g.index r.addr) w = { c'.line (g.index r.addr) w with
      state := .exclusive, counter := c'.maxCounter, data := d.getD Block.zero } ∧
    (c'.observe b).2.stats.writeBacks = c'.stats.writeBacks := by
  have hanswer : b.answerFor c'.id r.addr = some (u.reply d) := hr ▸ Bus.answerFor_reply hu ha
  have hstate : b.fillState (u.reply d) false = .exclusive := by
    simp [Bus.fillState, hb, Transfer.reply]
  have he : c'.observe b = (true, (c'.setLine (g.index r.addr) w
      { c'.line (g.index r.addr) w with
        state := .exclusive
        counter := c'.maxCounter
        data := d.getD Block.zero }).enter ⟨r, missed, false, .awaitFill w⟩ (.installed w)) := by
    rw [observe, hc]
    dsimp only
    rw [hanswer]
    dsimp only
    rw [if_neg (by simp [Transfer.reply]), Cache.install]
    dsimp only
    rw [if_pos hl, hstate]
    rfl
  rw [he]
  exact ⟨rfl, (h.setLine _).congr rfl rfl rfl, rfl, line_setLine_self _ _ _ _, rfl⟩

theorem wroteBack (missed contended : Bool) {victim : Addr} {u : Transfer} {d : Option Block}
    (hu : b.current = some (u.reply d)) (hr : u.requester = c'.id)
    (ha : u.addr.line = victim.line)
    (hc : c'.access = some ⟨r, missed, contended, .awaitWriteBack w victim⟩) :
    (c'.observe b).1 = true ∧ c.Serving r w (c'.observe b).2 ∧
    (c'.observe b).2.access = some ⟨r, missed, contended, .fill w⟩ ∧
    (c'.observe b).2.line (g.index r.addr) w = c'.line (g.index r.addr) w ∧
    (c'.observe b).2.stats.writeBacks = c'.stats.writeBacks := by
  have hanswer : b.answerFor c'.id victim = some (u.reply d) := hr ▸ Bus.answerFor_reply hu ha
  have he : c'.observe b =
      (true, c'.enter ⟨r, missed, contended, .awaitWriteBack w victim⟩ (.fill w)) := by
    rw [observe, hc]
    dsimp only
    rw [hanswer]
    rfl
  rw [he]
  exact ⟨rfl, h.congr rfl rfl rfl, rfl, rfl, rfl⟩

end Serving

theorem observe_of_request {b : Bus} {u : Transfer} (hu : b.current = some u)
    (hf : u.func.isAnswer = false) (c : Cache g) : c.observe b = (false, c) := by
  have hnone : ∀ core a, b.answerFor core a = none := fun core a => by
    simp [Bus.answerFor, hu, hf]
  unfold observe
  cases c.access with
  | none => rfl
  | some a => cases hp : a.phase <;> simp only [hp, hnone]

/-! ## Whole accesses -/

/-- **The cache completes its request after `k` transfers**, and is left with `P`: a request of its
own that is granted is followed by the answer of memory. -/
def Completes (r : Request) (hit : Bool) (P : Cache g → Prop) : (k : Nat) → Cache g → Prop
  | 0, c => ∀ (b : Bus) (t : Nat), ∃ (v : Word) (c' : Cache g),
    c.tick b t = ⟨.park, some ⟨r, v, hit, t⟩, c', b⟩ ∧ P c'
  | k + 1, c => ∃ u : Transfer, u.requester = c.id ∧ (u.func = .read ∨ u.func = .write) ∧
    ∀ (b : Bus) (t : Nat), b.grants .core → ∃ c' : Cache g, c.tick b t = c'.sleep (b.drive u) ∧
      c'.id = c.id ∧ ∀ (b' : Bus) (d : Option Block), b'.current = some (u.reply d) →
        b'.shared = false → (c'.observe b').1 = true ∧ Completes r hit P k (c'.observe b').2

namespace Mirrors

variable {past : List Request} (h : c.Mirrors past)
  (hv : Ideal.visits g (g.index r.addr) past < c.maxCounter)

/-- What is left of a cache that mirrors the ideal one by the access `r`. -/
structure After (c : Cache g) (past : List Request) (r : Request) (c' : Cache g) : Prop where
  mirrors : c'.Mirrors (r :: past)
  maxCounter : c'.maxCounter = c.maxCounter
  writeBacks : c'.stats.writeBacks = c.stats.writeBacks + (Ideal.writesBack g past r).toNat

include h

theorem hits_eq : Ideal.hits g past r = (c.sets[g.index r.addr].find? (g.tag r.addr)).isSome := by
  obtain ⟨order, ho⟩ := h.sets (g.index r.addr)
  rw [Bool.eq_iff_iff, ho.find?_isSome_iff, g.lineIn_place]
  exact decide_eq_true_iff

theorem line_of_hit (hh : Ideal.hits g past r) :
    c.sets[g.index r.addr].find? (g.tag r.addr) = some (c.place r) ∧
    (c.line (g.index r.addr) (c.place r)).tag = g.tag r.addr ∧
    (c.line (g.index r.addr) (c.place r)).state =
      if Ideal.written g past r.addr.lineNumber then .modified else .exclusive := by
  rw [h.hits_eq] at hh
  obtain ⟨w, hw⟩ := Option.isSome_iff_exists.mp hh
  obtain ⟨order, ho⟩ := h.sets (g.index r.addr)
  obtain ⟨hmem, htag⟩ := ho.mem_of_find? hw
  have hp : c.place r = w := by rw [place, LineSet.placeFor, hw, Option.getD_some]
  have hstate := ho.state w hmem
  rw [htag, g.lineIn_place] at hstate
  rw [hp]
  exact ⟨hw, htag, hstate⟩

include hv

theorem line_of_miss (hh : Ideal.hits g past r = false) :
    c.sets[g.index r.addr].find? (g.tag r.addr) = none ∧
    (c.line (g.index r.addr) (c.place r)).state.isDirty = Ideal.writesBack g past r ∧
    (c.line (g.index r.addr) (c.place r)).state ≠ .requested := by
  have hnone : c.sets[g.index r.addr].find? (g.tag r.addr) = none := by
    rw [← Option.not_isSome_iff_eq_none, ← h.hits_eq, hh]
    exact Bool.false_ne_true
  obtain ⟨order, ho⟩ := h.sets (g.index r.addr)
  have hp : c.place r = (c.sets[g.index r.addr].age none).victim g.ways_pos := by
    rw [place, LineSet.placeFor, hnone, Option.getD_none]
  have hstate : (c.line (g.index r.addr) (c.place r)).state = _ := hp ▸ ho.state_victim hv
  rw [hstate, Ideal.writesBack, Ideal.evicted?, hh, if_neg Bool.false_ne_true]
  refine ⟨hnone, ?_⟩
  cases (Ideal.recent g (g.index r.addr) past)[g.ways - 1]? with
  | none => exact ⟨rfl, by simp⟩
  | some l => cases hl : Ideal.written g past l <;> simp [hl, LineState.isDirty]

/-- A request that has used its line `l` is an access of the ideal cache. -/
theorem served (hs : c.Serving r (c.place r) c') (ha : c'.access = none) {l : Line}
    (hl : c'.line (g.index r.addr) (c.place r) = (l.serve c.maxCounter r).2)
    (htag : l.tag = g.tag r.addr)
    (hstate : l.state = if Ideal.hits g past r && Ideal.written g past r.addr.lineNumber then
      .modified else .exclusive) : c'.Mirrors (r :: past) := by
  obtain ⟨hserved, hcounter, hs'⟩ := l.serve_snd c.maxCounter r
  refine h.serve hv hs ha hl (hserved.trans htag) hcounter ?_
  rw [hs', Ideal.written_cons_self, hstate]
  cases r.isWrite <;> rfl

theorem completes_hit (hh : Ideal.hits g past r) (hs : c.Serving r (c.place r) c')
    (ha : c'.access = some ⟨r, false, false, .hit (c.place r)⟩)
    (hl : c'.line (g.index r.addr) (c.place r) = c.line (g.index r.addr) (c.place r))
    (hw : c'.stats.writeBacks = c.stats.writeBacks) :
    Completes r true (After c past r) 0 c' := by
  obtain ⟨-, htag, hstate⟩ := h.line_of_hit hh
  intro b t
  obtain ⟨v, c'', ht, hs', ha', hl', hw'⟩ := hs.useHit b t false false (.hit (c.place r))
    (by rw [hl, Line.offers, htag, hstate]; split_ifs <;> simp [LineState.hasData])
    (by rw [hl, hstate]; split_ifs <;> rfl)
  rw [hl, hs.maxCounter] at hl'
  have hnot : Ideal.writesBack g past r = false := by
    rw [Ideal.writesBack, Ideal.evicted?, if_pos hh]
    rfl
  refine ⟨v, c'', ?_, h.served hv hs' ha' hl' htag ?_, hs'.maxCounter, ?_⟩
  · rw [tick, ha]
    exact ht
  · rw [hh, Bool.true_and, hstate]
  · rw [hw', hw, hnot]
    rfl

theorem completes_fill (hh : Ideal.hits g past r = false) (hs : c.Serving r (c.place r) c')
    (contended : Bool) (p : Phase g.ways)
    (ht : ∀ b t, c'.tick b t = c'.fill ⟨r, true, contended, p⟩ (c.place r) b)
    (hl : (c'.line (g.index r.addr) (c.place r)).state ≠ .requested)
    (hw : c'.stats.writeBacks = c.stats.writeBacks + (Ideal.writesBack g past r).toNat) :
    Completes r false (After c past r) 1 c' := by
  refine ⟨⟨c'.id, .cache c'.id, r.addr.line, .read, none⟩, rfl, .inl rfl, fun b t hg => ?_⟩
  obtain ⟨c₁, hfill, hs₁, ha₁, hl₁, hw₁⟩ := hs.fill b true contended p hg hl
  refine ⟨c₁, (ht b t).trans hfill, hs₁.id.trans hs.id.symm, fun b' d hb hshared => ?_⟩
  have hline : r.addr.line.line = r.addr.line :=
    Addr.line_eq_line_iff.mpr (Addr.lineNumber_line r.addr)
  obtain ⟨hwoken, hs₂, ha₂, hl₂, hw₂⟩ := hs₁.install b' true hb (hs.id.trans hs₁.id.symm) hline
    hshared ha₁ (by rw [hl₁]; simp [Line.awaits])
  refine ⟨hwoken, fun b t => ?_⟩
  obtain ⟨v, c₃, ht₃, hs₃, ha₃, hl₃, hw₃⟩ := hs₂.useInstalled b t true false
    (.installed (c.place r)) (by rw [hl₂, hl₁]; simp [Line.offers, LineState.hasData])
    (by rw [hl₂]; exact nofun)
  rw [hs₂.maxCounter] at hl₃
  refine ⟨v, c₃, ?_, h.served hv hs₃ ha₃ hl₃ ?_ ?_, hs₃.maxCounter, ?_⟩
  · rw [tick, ha₂]
    exact ht₃
  · rw [hl₂, hl₁]
  · rw [hl₂, hh]
    rfl
  · rw [hw₃, hw₂, hw₁, hw]

theorem completes_miss (hh : Ideal.hits g past r = false) (hs : c.Serving r (c.place r) c')
    (ha : c'.access = some ⟨r, false, false, .miss (c.place r)⟩)
    (hl : (c'.line (g.index r.addr) (c.place r)).state =
      (c.line (g.index r.addr) (c.place r)).state)
    (hw : c'.stats.writeBacks = c.stats.writeBacks) :
    Completes r false (After c past r) (if Ideal.writesBack g past r then 2 else 1) c' := by
  obtain ⟨-, hdirty, hrequested⟩ := h.line_of_miss hv hh
  rw [← hl] at hdirty hrequested
  have htick : ∀ b t, c'.tick b t =
      c'.makeRoom ⟨r, false, false, .miss (c.place r)⟩ (c.place r) b := fun b t => by
    rw [tick, ha]
  cases hback : Ideal.writesBack g past r with
  | false =>
    rw [if_neg Bool.false_ne_true]
    rw [hback] at hdirty
    refine h.completes_fill hv hh hs false (.miss (c.place r)) (fun b t => ?_) hrequested
      (by rw [hback, hw]; rfl)
    rw [htick, makeRoom]
    dsimp only
    rw [hdirty, if_neg Bool.false_ne_true]
  | true =>
    -- The line in the way is dirty, and is written back before the fill.
    rw [if_pos rfl]
    rw [hback] at hdirty
    refine ⟨⟨c'.id, .cache c'.id, (g.addrAt (g.index r.addr)
      (c'.line (g.index r.addr) (c.place r)).tag).line, .write,
        some (c'.line (g.index r.addr) (c.place r)).data⟩, rfl, .inr rfl, fun b t hg => ?_⟩
    obtain ⟨c₁, hwrite, hs₁, ha₁, hl₁, hw₁⟩ :=
      hs.writeBack b true false (.miss (c.place r)) hg hdirty rfl
    refine ⟨c₁, ?_, hs₁.id.trans hs.id.symm, fun b' d hb _ => ?_⟩
    · rw [htick, makeRoom]
      dsimp only
      rw [hdirty, if_pos rfl]
      exact hwrite
    obtain ⟨hwoken, hs₂, ha₂, hl₂, hw₂⟩ := hs₁.wroteBack b' true false hb
      (hs.id.trans hs₁.id.symm) (Addr.line_eq_line_iff.mpr (Addr.lineNumber_line _)) ha₁
    refine ⟨hwoken, h.completes_fill hv hh hs₂ false (.fill (c.place r)) (fun b t => ?_) ?_ ?_⟩
    · rw [tick, ha₂]
    · rw [hl₂, hl₁]
      exact hrequested
    · rw [hw₂, hw₁, hw, hback]
      rfl

/-- **An access of a cache that mirrors the ideal one**: the lookup, and then as many transfers as
the ideal cache needs. -/
theorem completes : ∃ c₁ : Cache g,
    (∀ b t, ({ c with access := some (.start r) } : Cache g).tick b t = c₁.goOn b) ∧
    c₁.id = c.id ∧
    Completes r (Ideal.hits g past r) (After c past r) (Ideal.transfers g past r) c₁ := by
  unfold Ideal.transfers
  cases hh : Ideal.hits g past r with
  | true =>
    obtain ⟨hfound, -⟩ := h.line_of_hit hh
    have hs := c.serving_lookedUp (some (c.place r)) (.hit (c.place r)) r
      fun v hne he => hne (Option.some.inj he).symm
    refine ⟨c.lookedUp (some (c.place r)) (.hit (c.place r)) r, fun b t => ?_, rfl,
      h.completes_hit hv hh hs rfl ?_ rfl⟩
    · rw [tick_start, hfound]
    · rw [line_lookedUp, if_pos rfl]
  | false =>
    obtain ⟨hnone, -⟩ := h.line_of_miss hv hh
    have hs := c.serving_lookedUp none (.miss (c.place r)) r (w := c.place r) fun _ _ => by simp
    refine ⟨c.lookedUp none (.miss (c.place r)) r, fun b t => ?_, rfl,
      h.completes_miss hv hh hs rfl ?_ rfl⟩
    · rw [tick_start, hnone, place, LineSet.placeFor, hnone, Option.getD_none]
    · rw [line_lookedUp, if_neg (by simp), Line.aged]

end Mirrors

end Cache

end Snooping
