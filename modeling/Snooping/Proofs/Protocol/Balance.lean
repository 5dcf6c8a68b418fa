import Mathlib.Algebra.Order.BigOperators.Group.Finset
import Mathlib.Algebra.Order.Group.Multiset
import Mathlib.Data.Fintype.BigOperators
import Mathlib.Tactic.Abel
import Snooping.Proofs.Protocol.View

/-!
# The balance of requests and answers

A request that was driven stays a debt until its answer is looked at: of the bus first, then of
memory or of a peer, and of the bus again. A cache that waits is owed one answer, and no other cache
is owed any.

* `Debt`, `Transfer.owed`, `View.owed`: what is owed, to whom, and for which request.
* `Stage.asks`, `View.asked`: what is awaited.
* **`View.Balanced`**: both are the same.
* **`View.balanced_turn`**, **`View.balanced_broadcast`**: they stay the same.
* **`View.Balanced.count`**: the number of answers on their way to one cache.
* `View.Balanced.stage_of_pending`, `View.Balanced.stage_of_job`,
  `View.Balanced.stage_of_response`: what follows for a single answer.
-/

namespace Snooping

open Finset

/-- Who is owed an answer to which request for which line. -/
abbrev Debt := Nat × Func × Addr

/-- What is awaited by the cache with number `i`. -/
def Stage.asks (i : Nat) : Stage → Multiset Debt
  | .awaits f a => {(i, f, a)}
  | .idle | .works | .taken _ | .leaves _ => 0

/-- The request of a transfer as a debt. -/
def Transfer.debt (t : Transfer) : Debt := (t.requester, t.func, t.addr)

/-- What a transfer owes as long as nobody has looked at it. An answer with data answers a read. -/
def Transfer.owed (t : Transfer) : Multiset Debt :=
  match t.func with
  | .read | .write => {t.debt}
  | .response => {(t.requester, if t.data.isSome then .read else .write, t.addr)}
  | .nothing | .invalidate | .requested => 0

/-- A job as a debt. -/
def ForwardJob.debt (k : ForwardJob) : Debt := (k.dest, .read, k.addr)

namespace View

variable {n : Nat}

/-- What peers owe. -/
def promised (jobs : Fin n → List ForwardJob) : Multiset Debt :=
  ∑ j, ((jobs j).map ForwardJob.debt : Multiset Debt)

/-- **What is owed**, by memory, by peers and by the bus. -/
def owed (V : View n) : Multiset Debt :=
  (V.pending.map Transfer.debt : Multiset Debt) + promised V.jobs + V.current.elim 0 Transfer.owed

/-- **What is awaited.** -/
def asked (stage : Fin n → Stage) : Multiset Debt := ∑ i, (stage i).asks i

/-- **What is owed is what is awaited.** -/
structure Balanced (V : View n) : Prop where
  even : V.owed = asked V.stage
  line : ∀ i f a, V.stage i = .awaits f a → (f = .read ∨ f = .write) ∧ a.line = a
  carried : ∀ j, ∀ k ∈ V.jobs j, k.data.isSome
  origin : ∀ t, V.current = some t → t.func = .response → t.data.isSome ∨ t.source = .memory
  idle : V.pending = [] → V.captured = none
  quiet : ∀ t, V.current = some t → t.func = .read → ∀ j, V.jobs j = []
  taking : ∀ t, V.current = some t → t.func = .invalidate →
    ∃ i : Fin n, t.requester = i ∧ V.stage i = .taken t.addr.line

/-! ## Sums over the caches -/

theorem sum_update {α M : Type} [AddCommMonoid M] (F : Fin n → α → M) (f : Fin n → α) (i : Fin n)
    (y : α) : ∑ j, F j (Function.update f i y j) + F i (f i) = ∑ j, F j (f j) + F i y := by
  have hrest : ∑ j ∈ univ \ {i}, F j (Function.update f i y j) = ∑ j ∈ univ \ {i}, F j (f j) := by
    refine sum_congr rfl fun j hj => ?_
    rw [Function.update_of_ne (by simpa using hj)]
  rw [sum_eq_add_sum_sdiff_singleton_of_mem (mem_univ i),
    sum_eq_add_sum_sdiff_singleton_of_mem (mem_univ i) fun j => F j (f j), hrest,
    Function.update_self]
  abel

theorem asked_update (stage : Fin n → Stage) (i : Fin n) (s : Stage) :
    asked (Function.update stage i s) + (stage i).asks i = asked stage + s.asks i :=
  sum_update (fun j s => Stage.asks j s) stage i s

theorem promised_update (jobs : Fin n → List ForwardJob) (i : Fin n) (l : List ForwardJob) :
    promised (Function.update jobs i l) + ((jobs i).map ForwardJob.debt : Multiset Debt) =
      promised jobs + (l.map ForwardJob.debt : Multiset Debt) :=
  sum_update (fun _ (l : List ForwardJob) => ((l.map ForwardJob.debt : List Debt) : Multiset Debt))
    jobs i l

theorem mem_asked {stage : Fin n → Stage} {d : Debt} :
    d ∈ asked stage ↔ ∃ i : Fin n, d.1 = i ∧ stage i = .awaits d.2.1 d.2.2 := by
  simp only [asked, Multiset.mem_sum, mem_univ, true_and]
  refine exists_congr fun i => ?_
  cases hs : stage i with
  | awaits f a =>
    simp only [Stage.asks, Multiset.mem_singleton, Stage.awaits.injEq]
    constructor
    · rintro rfl
      exact ⟨rfl, rfl, rfl⟩
    · rintro ⟨hi, hf, ha⟩
      exact Prod.ext hi (Prod.ext hf.symm ha.symm)
  | _ => simp [Stage.asks]

/-! ## Turns and broadcasts -/

theorem owed_drive {V : View n} (hb : V.current = none) (t : Transfer) :
    (V.drive t).owed = V.owed + t.owed := by
  simp only [owed, drive, hb, Option.elim_none, Option.elim_some, add_zero]

theorem even_set {V : View n} (h : V.owed = asked V.stage) {i : Fin n} {s : Stage}
    (c : Addr → LineState × Block) (hi : (V.stage i).asks i = 0) (hs : s.asks i = 0) :
    (V.set i s c).owed = asked (V.set i s c).stage := by
  have hu := asked_update V.stage i s
  rw [hi, hs, add_zero, add_zero] at hu
  exact h.trans hu.symm

theorem asks_of_idle {i : Nat} {s : Stage} (h : s = .idle ∨ s = .works) : s.asks i = 0 := by
  rcases h with rfl | rfl <;> rfl

theorem asks_of_leaves {i : Nat} {s : Stage} (h : s = .works ∨ ∃ u, s = .leaves u) :
    s.asks i = 0 := by
  rcases h with rfl | ⟨u, rfl⟩ <;> rfl

theorem asks_of_taken {i : Nat} {s : Stage} {u : Addr} (h : s = .works ∨ s = .taken u) :
    s.asks i = 0 := by
  rcases h with rfl | rfl <;> rfl

namespace Balanced

variable {V : View n}

theorem set (h : V.Balanced) {i : Fin n} {s : Stage} (c : Addr → LineState × Block)
    (hi : (V.stage i).asks i = 0) (hs : s.asks i = 0)
    (ht : ∀ u, V.stage i = .taken u → ¬ V.Fresh i) : (V.set i s c).Balanced where
  even := even_set h.even c hi hs
  line j f a hj := by
    by_cases hij : j = i
    · subst hij
      rw [stage_set_self] at hj
      rw [hj] at hs
      exact absurd hs (Multiset.singleton_ne_zero _)
    · rw [stage_set_of_ne _ _ _ hij] at hj
      exact h.line j f a hj
  carried := h.carried
  origin := h.origin
  idle := h.idle
  quiet := h.quiet
  taking t hc hf := by
    obtain ⟨j, hj, hst⟩ := h.taking t hc hf
    refine ⟨j, hj, ?_⟩
    have hij : j ≠ i := by
      rintro rfl
      exact ht _ hst ⟨t, hc, hj, by rw [hf]; rfl⟩
    rw [stage_set_of_ne _ _ _ hij]
    exact hst

theorem request (h : V.Balanced) (hb : V.current = none) {i : Fin n} {s : Stage}
    (c : Addr → LineState × Block) {t : Transfer} (hi : (V.stage i).asks i = 0)
    (ht : t.owed = s.asks i)
    (hs : ∀ f a, s = .awaits f a → (f = .read ∨ f = .write) ∧ a.line = a)
    (hr : t.func ≠ .response) (hq : t.func = .read → ∀ j, V.jobs j = [])
    (hk : t.func = .invalidate → t.requester = i ∧ s = .taken t.addr.line) :
    ((V.set i s c).drive t).Balanced where
  even := by
    have hu := asked_update V.stage i s
    have hd : ((V.set i s c).drive t).owed = (V.set i s c).owed + t.owed := owed_drive hb t
    rw [hi, add_zero, ← ht] at hu
    rw [hd]
    exact (congrArg (· + _) h.even).trans hu.symm
  line j f a hj := by
    by_cases hij : j = i
    · subst hij
      exact hs f a ((stage_set_self V j s c).symm.trans hj)
    · exact h.line j f a ((stage_set_of_ne V s c hij).symm.trans hj)
  carried := h.carried
  origin u hu hf := by
    cases hu
    exact absurd hf hr
  idle := h.idle
  quiet u hu hf := by
    cases hu
    exact hq hf
  taking u hu hf := by
    cases hu
    obtain ⟨hi, rfl⟩ := hk hf
    exact ⟨i, hi, stage_set_self V i _ c⟩

theorem stage_of_owed (h : V.Balanced) {d : Debt} (hd : d ∈ V.owed) :
    ∃ i : Fin n, d.1 = i ∧ V.stage i = .awaits d.2.1 d.2.2 := by
  rw [h.even] at hd
  exact mem_asked.mp hd

theorem stage_of_pending (h : V.Balanced) {t : Transfer} (ht : t ∈ V.pending) :
    ∃ i : Fin n, t.requester = i ∧ V.stage i = .awaits t.func t.addr := by
  refine h.stage_of_owed (d := t.debt) ?_
  simp only [owed, Multiset.mem_add, Multiset.mem_coe]
  exact .inl (.inl (List.mem_map_of_mem ht))

theorem stage_of_job (h : V.Balanced) {j : Fin n} {k : ForwardJob} (hk : k ∈ V.jobs j) :
    ∃ i : Fin n, k.dest = i ∧ V.stage i = .awaits .read k.addr := by
  refine h.stage_of_owed (d := k.debt) ?_
  simp only [owed, promised, Multiset.mem_add, Multiset.mem_sum, Multiset.mem_coe]
  exact .inl (.inr ⟨j, mem_univ j, List.mem_map_of_mem hk⟩)

theorem stage_of_response (h : V.Balanced) {t : Transfer} (ht : V.current = some t)
    (hf : t.func = .response) : ∃ i : Fin n, t.requester = i ∧
      V.stage i = .awaits (if t.data.isSome then .read else .write) t.addr := by
  refine h.stage_of_owed (d := (t.requester, if t.data.isSome then .read else .write, t.addr)) ?_
  simp only [owed, Multiset.mem_add, ht, Option.elim_some, Transfer.owed, hf,
    Multiset.mem_singleton]
  exact .inr trivial

theorem answer (h : V.Balanced) (hb : V.current = none) {t : Transfer} {rest : List Transfer}
    (hp : V.pending = t :: rest) : (V.answer t rest).Balanced where
  even := by
    obtain ⟨i, -, hs⟩ := h.stage_of_pending (hp ▸ List.mem_cons_self)
    obtain ⟨hf, hl⟩ := h.line i _ _ hs
    refine Eq.trans ?_ h.even
    have hd : Transfer.owed ⟨t.requester, .memory, t.addr.line, .response,
        if t.func = .read then some (V.reply t) else none⟩ = {t.debt} := by
      rcases hf with hf | hf <;> simp [Transfer.owed, Transfer.debt, hf, hl]
    simp only [owed, View.answer, hb, hp, Option.elim_none, Option.elim_some, hd, List.map_cons,
      ← Multiset.cons_coe, ← Multiset.singleton_add]
    abel
  line := h.line
  carried := h.carried
  origin u hu _ := by
    cases hu
    exact .inr rfl
  idle _ := rfl
  quiet u hu hf := by
    cases hu
    cases hf
  taking u hu hf := by
    cases hu
    cases hf

theorem forward (h : V.Balanced) (hb : V.current = none) {j : Fin n} {k : ForwardJob}
    {rest : List ForwardJob} (hj : V.jobs j = k :: rest) :
    ({ V with jobs := Function.update V.jobs j rest }.drive
      ⟨k.dest, .cache j, k.addr.line, .response, k.data⟩).Balanced where
  even := by
    have hk : k ∈ V.jobs j := hj ▸ List.mem_cons_self
    obtain ⟨i, -, hs⟩ := h.stage_of_job hk
    have hl := (h.line i _ _ hs).2
    refine Eq.trans ?_ h.even
    have hd : Transfer.owed ⟨k.dest, .cache j, k.addr.line, .response, k.data⟩ = {k.debt} := by
      simp [Transfer.owed, ForwardJob.debt, hl, h.carried j k hk]
    have hu := promised_update V.jobs j rest
    rw [hj, List.map_cons, ← Multiset.cons_coe, ← Multiset.singleton_add] at hu
    have hu : promised (Function.update V.jobs j rest) + {k.debt} = promised V.jobs :=
      add_right_cancel (b := ((rest.map ForwardJob.debt : List Debt) : Multiset Debt))
        (by rw [← hu]; abel)
    simp only [owed, drive, hb, Option.elim_none, Option.elim_some, hd, ← hu]
    abel
  line := h.line
  carried j' k' hk' := by
    by_cases hjj : j' = j
    · subst hjj
      simp only [drive, Function.update_self] at hk'
      exact h.carried j' k' (hj ▸ List.mem_cons_of_mem k hk')
    · simp only [drive, Function.update_of_ne hjj] at hk'
      exact h.carried j' k' hk'
  origin u hu _ := by
    cases hu
    exact .inl (h.carried j k (hj ▸ List.mem_cons_self))
  idle := h.idle
  quiet u hu hf := by
    cases hu
    cases hf
  taking u hu hf := by
    cases hu
    cases hf

end Balanced

/-- **Turns keep the balance.** -/
theorem balanced_turn {V V' : View n} {d : Option Request} (h : V.Balanced) (ht : V.Turn d V') :
    V'.Balanced := by
  cases ht with
  | work hs =>
    exact h.set _ (asks_of_idle hs) rfl fun u hu => by simp [hu] at hs
  | take hb hs hd =>
    exact h.request hb _ (asks_of_idle (.inr hs)) rfl nofun nofun nofun fun _ =>
      ⟨rfl, by rw [Addr.line_line]⟩
  | evict hb hs hd =>
    refine h.request hb _ (asks_of_idle (.inr hs)) rfl (fun f a he => ?_) nofun nofun nofun
    cases he
    exact ⟨.inr rfl, Addr.line_line _⟩
  | ask hs hc =>
    exact h.set _ (asks_of_leaves hs) rfl fun u hu => by simp [hu] at hs
  | fetch hb hj hs hc =>
    refine h.request hb _ (asks_of_leaves hs) rfl (fun f a he => ?_) nofun (fun _ => hj) nofun
    cases he
    exact ⟨.inl rfl, Addr.line_line _⟩
  | finish hf hs hd hw hx hc => exact h.set _ (asks_of_taken hs) rfl fun _ _ => hf
  | capture hp hr => exact { h with idle := fun he => absurd (hp.symm.trans he) (by simp) }
  | answer hb hp => exact h.answer hb hp
  | forward hb hj => exact h.forward hb hj
  | @notice t hb hf =>
    have ho : (V.drive t).owed = V.owed := by
      rw [owed_drive hb]
      simp [Transfer.owed, hf]
    refine { h with even := ho.trans h.even, origin := ?_, quiet := ?_, taking := ?_ }
    all_goals
      intro u hu hx
      cases hu
      exact absurd (hf.symm.trans hx) (by decide)

theorem asks_seen (i : Nat) (s : Stage) (t : Transfer) : (s.seen t).asks i = s.asks i := by
  unfold Stage.seen
  split_ifs with hs
  · rw [hs.2]
    rfl
  · rfl

theorem awaits_of_seen {s : Stage} {t : Transfer} {f : Func} {a : Addr}
    (h : s.seen t = .awaits f a) : s = .awaits f a := by
  unfold Stage.seen at h
  split_ifs at h
  exact h

namespace Balanced

variable {V : View n} {t : Transfer}

theorem seen (h : V.Balanced) (hc : V.current = some t) {jobs : Fin n → List ForwardJob}
    {pending : List Transfer}
    (he : (pending.map Transfer.debt : Multiset Debt) + promised jobs =
      (V.pending.map Transfer.debt : Multiset Debt) + promised V.jobs + t.owed)
    (hd : ∀ j, ∀ k ∈ jobs j, k.data.isSome) (hp : pending = [] → V.pending = []) :
    { V.seen t with jobs := jobs, pending := pending }.Balanced where
  even := by
    have ho := h.even
    rw [owed, hc] at ho
    have ha : asked (V.seen t).stage = asked V.stage := by
      refine sum_congr rfl fun j _ => ?_
      dsimp only [View.seen]
      split_ifs
      · exact asks_seen j _ t
      · rfl
    exact (add_zero _).trans (he.trans (ho.trans ha.symm))
  line j f a hj := by
    dsimp only [View.seen] at hj
    split_ifs at hj
    · exact h.line j f a (awaits_of_seen hj)
    · exact h.line j f a hj
  carried := hd
  origin := nofun
  idle hx := h.idle (hp hx)
  quiet := nofun
  taking := nofun

theorem taken (h : V.Balanced) (hc : V.current = some t) (hf : t.func = .response) {i : Fin n}
    (hi : t.requester = i) {f : Func} (hst : V.stage i = .awaits f t.addr) {s : Stage}
    (c : Addr → LineState × Block) (hs : s.asks i = 0) : (V.taken i s c).Balanced where
  even := by
    have ho := h.even
    obtain ⟨j, hj, hsj⟩ := h.stage_of_response hc hf
    obtain rfl : i = j := Fin.ext (hi.symm.trans hj)
    have hd : (V.stage i).asks i = t.owed := by
      simp only [hsj, Stage.asks, Transfer.owed, hf, hi]
    have hu := asked_update V.stage i s
    rw [hd, hs, add_zero, ← ho, owed, hc, Option.elim_some] at hu
    exact (add_zero _).trans (add_right_cancel hu).symm
  line j f a hj := by
    by_cases hij : j = i
    · subst hij
      rw [(stage_set_self V j s c).symm.trans hj] at hs
      exact absurd hs (Multiset.singleton_ne_zero _)
    · exact h.line j f a ((stage_set_of_ne V s c hij).symm.trans hj)
  carried := h.carried
  origin := nofun
  idle := h.idle
  quiet := nofun
  taking := nofun

theorem noticed (h : V.Balanced) (hc : V.current = some t) (hf : t.func = .requested) :
    { V with current := none }.Balanced where
  even := by
    have ho := h.even
    have hz : t.owed = 0 := by simp only [Transfer.owed, hf]
    rw [owed, hc, Option.elim_some, hz] at ho
    exact ho
  line := h.line
  carried := h.carried
  origin := nofun
  idle := h.idle
  quiet := nofun
  taking := nofun

end Balanced

/-- **Broadcasts keep the balance.** -/
theorem balanced_broadcast {V V' : View n} {t : Transfer} (h : V.Balanced)
    (hc : V.current = some t) (hb : V.Broadcast t V') : V'.Balanced := by
  -- a read or a write joins the requests that memory has to answer
  have hjoin : t.owed = {t.debt} → ((V.seen t).enqueue t).Balanced := by
    intro ho
    refine h.seen hc ?_ h.carried (by simp)
    rw [ho, List.map_append, ← Multiset.coe_add]
    simp only [View.seen, List.map_cons, List.map_nil, Multiset.coe_singleton]
    abel
  cases hb with
  | @claimed k s hf hq hk hd =>
    refine h.seen hc ?_ (fun j k' hk' => ?_) fun hp => hp
    · have hu := promised_update V.jobs k
        (V.jobs k ++ [⟨t.requester, t.addr, s, some (V.copy k t.addr).2⟩])
      have ho : t.owed = {ForwardJob.debt ⟨t.requester, t.addr, s, some (V.copy k t.addr).2⟩} := by
        simp [Transfer.owed, Transfer.debt, ForwardJob.debt, hf]
      rw [List.map_append, ← Multiset.coe_add, ← add_assoc, add_right_comm] at hu
      rw [ho, add_assoc]
      exact congrArg (_ + ·) (add_right_cancel hu)
    · by_cases hj : j = k
      · subst hj
        rw [Function.update_self, List.mem_append, List.mem_singleton] at hk'
        rcases hk' with hk' | rfl
        · exact h.carried j k' hk'
        · rfl
      · rw [Function.update_of_ne hj] at hk'
        exact h.carried j k' hk'
  | unclaimed hf hq hd => exact hjoin (by simp [Transfer.owed, hf])
  | written hf hq => exact hjoin (by simp [Transfer.owed, hf])
  | invalidated hf hq =>
    refine h.seen hc ?_ h.carried fun hp => hp
    simp [Transfer.owed, hf]
  | landed hf hi hs hl =>
    refine h.taken hc hf hi hs _ ?_
    rcases hl with rfl | ⟨rfl, -⟩ <;> rfl
  | filled hf hi hs hr hl hx => exact h.taken hc hf hi hs _ rfl
  | discarded hf hi hs hr => exact h.taken hc hf hi hs _ rfl
  | noticed hf => exact h.noticed hc hf

/-! ## The answers to one cache -/

namespace Balanced

variable {V : View n} {t : Transfer}

theorem countP_asked (stage : Fin n → Stage) (i : Fin n) :
    (asked stage).countP (fun d => d.1 = i.val) = ((stage i).asks i).card := by
  have hsum : (asked stage).countP (fun d => d.1 = i.val) =
      ∑ j : Fin n, ((stage j).asks j).countP fun d => d.1 = i.val :=
    map_sum (Multiset.countPAddMonoidHom fun d : Debt => d.1 = i.val)
      (fun j => (stage j).asks j) univ
  rw [hsum, sum_eq_single i]
  · cases stage i with
    | awaits f a => simp [Stage.asks, ← Multiset.cons_zero]
    | _ => rfl
  · intro j _ hj
    have hne : (j : Nat) ≠ i := fun e => hj (Fin.ext e)
    cases stage j with
    | awaits f a => simp [Stage.asks, ← Multiset.cons_zero, hne]
    | _ => rfl
  · exact fun hi => absurd (mem_univ i) hi

/-- **One answer is on its way to a cache that waits**, and none to any other. -/
theorem count (h : V.Balanced) (i : Fin n) :
    V.pending.countP (fun t => t.requester = i.val) +
      ∑ j, (V.jobs j).countP (fun k => k.dest = i.val) +
        (V.current.elim 0 Transfer.owed).countP (fun d => d.1 = i.val) =
      ((V.stage i).asks i).card := by
  have hjobs : (promised V.jobs).countP (fun d => d.1 = i.val) =
      ∑ j, (V.jobs j).countP fun k => k.dest = i.val := by
    have hsum : (promised V.jobs).countP (fun d => d.1 = i.val) =
        ∑ j, ((V.jobs j).map ForwardJob.debt : Multiset Debt).countP fun d => d.1 = i.val :=
      map_sum (Multiset.countPAddMonoidHom fun d : Debt => d.1 = i.val)
        (fun j => ((V.jobs j).map ForwardJob.debt : Multiset Debt)) univ
    rw [hsum]
    refine sum_congr rfl fun j _ => ?_
    rw [Multiset.coe_countP, List.countP_map]
    rfl
  rw [← countP_asked, ← h.even, owed, Multiset.countP_add, Multiset.countP_add, hjobs,
    Multiset.coe_countP, List.countP_map]
  rfl

theorem card_asks_le (i : Nat) (s : Stage) : (s.asks i).card ≤ 1 := by
  cases s <;> simp [Stage.asks]

/-- Memory never has more requests than there are caches. -/
theorem length_pending_le (h : V.Balanced) : V.pending.length ≤ n := by
  have hasked : (asked V.stage).card ≤ n := by
    rw [asked, Multiset.card_sum]
    have hle := sum_le_card_nsmul univ (fun i : Fin n => ((V.stage i).asks i).card) 1 fun i _ =>
      card_asks_le i (V.stage i)
    simpa using hle
  rw [← h.even, owed, Multiset.card_add, Multiset.card_add, Multiset.coe_card, List.length_map]
    at hasked
  omega

theorem requester_ne (h : V.Balanced) (hc : V.current = some t)
    (hf : t.func = .read ∨ t.func = .write ∨ t.func = .response) {u : Transfer}
    (hu : u ∈ V.pending) : u.requester ≠ t.requester := by
  intro he
  obtain ⟨i, hi, hs⟩ := h.stage_of_pending hu
  have hcount := h.count i
  have hle := card_asks_le i (V.stage i)
  have hpos : 0 < V.pending.countP fun t => t.requester = i.val :=
    List.countP_pos_iff.mpr ⟨u, hu, by simpa using hi⟩
  have hone : (V.current.elim 0 Transfer.owed).countP (fun d => d.1 = i.val) = 1 := by
    have hti : t.requester = i := he.symm.trans hi
    rw [hc, Option.elim_some]
    rcases hf with hf | hf | hf <;>
      simp [Transfer.owed, Transfer.debt, hf, hti, ← Multiset.cons_zero]
  omega

end Balanced

end View

end Snooping
