import Mathlib.Data.List.Forall2
import Snooping.CommandLine.Options
import Snooping.Proofs.Text.Numeral

/-!
# Where options stand

A command line is cut into pieces from left to right, an option with a value together with the
argument behind it. What it asks for depends on the names among its pieces, on the last value of
each option and on whether there is a `--no-check`; the first piece that is wrong is its error.
Hence pieces may change places, as long as those of one kind keep their order.

* **`Pieces`**: how a command line is cut.
* `Piece.Reads`, `Piece.Wrong`: what a piece is read as, and what is wrong with it.
* `Item.ofArgs_eq_mapM`: a command line is read piece by piece.
* `Moved`: the same pieces in another order.
* **`Options.ofArgs_pieces`**: what a command line asks for.
-/

namespace Snooping

variable {e : ConfigError}

/-! ## Options -/

/-- An argument that looks like an option. -/
def Dashed (arg : String) : Prop := "--".toList <+: arg.toList

instance : DecidablePred Dashed := fun arg => inferInstanceAs (Decidable (_ <+: arg.toList))

namespace Setting

variable {s : Setting} {text : String} {n : Nat}

/-- **A text gives an option a value**: it is a decimal numeral below the bound of the option. -/
def Takes (s : Setting) (text : String) (n : Nat) : Prop :=
  Text.Signed 10 text.toList n ∧ n < s.bound

theorem takes_iff : s.Takes text n ↔ Text.numeral? 10 s.bound text.toList = some n :=
  Text.numeral?_eq_some_iff.symm

theorem read_eq_ok_iff : s.read text = .ok n ↔ s.Takes text n := by
  rw [takes_iff, read]
  cases Text.numeral? 10 s.bound text.toList <;> simp

theorem read_eq_error_iff :
    s.read text = .error e ↔ (∀ n, ¬ s.Takes text n) ∧ e = .invalidValue s.flag text := by
  simp only [takes_iff, read]
  cases Text.numeral? 10 s.bound text.toList <;> simp [eq_comm]

theorem dashed_flag (s : Setting) : Dashed s.flag := by
  cases s <;> exact ⟨_, rfl⟩

theorem flag_ne_noCheck (s : Setting) : s.flag ≠ Item.noCheckFlag := by
  cases s <;> decide

@[simp] theorem ofFlag?_flag (s : Setting) : ofFlag? s.flag = some s := by
  cases s <;> decide

theorem ofFlag?_eq_some_iff {arg : String} : ofFlag? arg = some s ↔ arg = s.flag := by
  constructor
  · intro h
    have hflag := List.find?_some h
    exact (of_decide_eq_true hflag).symm
  · rintro rfl
    exact ofFlag?_flag s

theorem ofFlag?_eq_none_iff {arg : String} : ofFlag? arg = none ↔ ∀ s, arg ≠ flag s := by
  simp only [Option.eq_none_iff_forall_ne_some, ne_eq, ofFlag?_eq_some_iff]

end Setting

/-! ## Pieces -/

/-- A piece of a command line. -/
inductive Piece
  | name (text : String)
  | setting (s : Setting) (text : String)
  /-- An option that nothing follows. -/
  | dangling (s : Setting)
  | noCheck
  | unknown (text : String)
  deriving DecidableEq

namespace Piece

variable {p : Piece} {i : Item}

/-- The arguments of a piece. -/
def args : Piece → List String
  | name text | unknown text => [text]
  | setting s text => [s.flag, text]
  | dangling s => [s.flag]
  | noCheck => [Item.noCheckFlag]

/-- The name that a piece is. -/
def name? : Piece → Option String
  | name text => some text
  | _ => none

/-- The text that a piece gives an option as its value. -/
def text? (s : Setting) : Piece → Option String
  | setting t text => if t = s then some text else none
  | _ => none

/-- **What a piece is read as.** -/
inductive Reads : Piece → Item → Prop
  | name (text : String) : Reads (.name text) (.name text)
  | setting {s : Setting} {text : String} {n : Nat} (h : s.Takes text n) :
      Reads (.setting s text) (.setting s n)
  | noCheck : Reads .noCheck .noCheck

/-- **What is wrong with a piece.** -/
inductive Wrong : Piece → ConfigError → Prop
  | setting {s : Setting} {text : String} (h : ∀ n, ¬ s.Takes text n) :
      Wrong (.setting s text) (.invalidValue s.flag text)
  | dangling (s : Setting) : Wrong (.dangling s) (.needsValue s.flag)
  | unknown (text : String) : Wrong (.unknown text) (.unknownOption text)

/-- Something is wrong with a piece. -/
def IsWrong (p : Piece) : Prop := ∃ e, p.Wrong e

/-- The item of a piece, or what is wrong with it. -/
def item : Piece → Except ConfigError Item
  | name text => .ok (.name text)
  | setting s text => (s.read text).map (Item.setting s)
  | dangling s => .error (.needsValue s.flag)
  | noCheck => .ok .noCheck
  | unknown text => .error (.unknownOption text)

theorem item_eq_ok_iff : p.item = .ok i ↔ p.Reads i := by
  constructor
  · intro h
    cases p with
    | name text | noCheck =>
      cases h
      constructor
    | dangling s | unknown text => cases h
    | setting s text =>
      cases hr : s.read text with
      | error e => rw [item, hr] at h; cases h
      | ok n =>
        rw [item, hr] at h
        cases h
        exact .setting (Setting.read_eq_ok_iff.mp hr)
  · rintro (_ | h | _)
    · rfl
    · rw [item, Setting.read_eq_ok_iff.mpr h]
      rfl
    · rfl

theorem item_eq_error_iff : p.item = .error e ↔ p.Wrong e := by
  constructor
  · intro h
    cases p with
    | name text | noCheck => cases h
    | dangling s | unknown text =>
      cases h
      constructor
    | setting s text =>
      cases hr : s.read text with
      | ok n => rw [item, hr] at h; cases h
      | error e' =>
        rw [item, hr] at h
        cases h
        obtain ⟨hn, rfl⟩ := Setting.read_eq_error_iff.mp hr
        exact .setting hn
  · rintro (h | _ | _)
    · rw [item, Setting.read_eq_error_iff.mpr ⟨h, rfl⟩]
      rfl
    · rfl
    · rfl

theorem isWrong_iff : p.IsWrong ↔ p.item.isOk = false := by
  simp only [IsWrong, ← item_eq_error_iff]
  cases p.item <;> simp [Except.isOk, Except.toBool]

instance : DecidablePred IsWrong := fun _ => decidable_of_iff _ isWrong_iff.symm

/-- **A piece is read or wrong.** -/
theorem not_isWrong_iff : ¬ p.IsWrong ↔ ∃ i, p.Reads i := by
  simp only [IsWrong, ← item_eq_error_iff, ← item_eq_ok_iff]
  cases p.item <;> simp

end Piece

/-- **A command line in pieces**, from left to right: an option takes the next argument as its
value, whatever it looks like. -/
inductive Pieces : List String → List Piece → Prop
  | nil : Pieces [] []
  | setting (s : Setting) (text : String) {args : List String} {ps : List Piece}
      (h : Pieces args ps) : Pieces (s.flag :: text :: args) (.setting s text :: ps)
  | dangling (s : Setting) : Pieces [s.flag] [.dangling s]
  | noCheck {args : List String} {ps : List Piece} (h : Pieces args ps) :
      Pieces ("--no-check" :: args) (.noCheck :: ps)
  | unknown {text : String} (hd : Dashed text) (hs : ∀ s : Setting, text ≠ s.flag)
      (hc : text ≠ "--no-check") {args : List String} {ps : List Piece} (h : Pieces args ps) :
      Pieces (text :: args) (.unknown text :: ps)
  | name {text : String} (hd : ¬ Dashed text) {args : List String} {ps : List Piece}
      (h : Pieces args ps) : Pieces (text :: args) (.name text :: ps)

variable {args args' : List String} {ps ps' : List Piece} {is is' : List Item}

/-- **Every command line is in pieces.** -/
theorem exists_pieces (args : List String) : ∃ ps, Pieces args ps := by
  -- The cases are those of reading: an option takes two arguments, anything else takes one.
  induction args using Item.ofArgs.induct with
  | case1 => exact ⟨_, .nil⟩
  | case2 arg s hs =>
    obtain rfl := Setting.ofFlag?_eq_some_iff.mp hs
    exact ⟨_, .dangling s⟩
  | case3 arg s text args hs ih =>
    obtain rfl := Setting.ofFlag?_eq_some_iff.mp hs
    obtain ⟨ps, h⟩ := ih
    exact ⟨_, .setting s text h⟩
  | case4 arg args hs ih =>
    obtain ⟨ps, h⟩ := ih
    by_cases hd : Dashed arg
    · by_cases hc : arg = "--no-check"
      · subst hc
        exact ⟨_, .noCheck h⟩
      · exact ⟨_, .unknown hd (Setting.ofFlag?_eq_none_iff.mp hs) hc h⟩
    · exact ⟨_, .name hd h⟩

namespace Pieces

theorem not_dashed (h : Pieces args ps) {text : String} (ht : .name text ∈ ps) : ¬ Dashed text := by
  induction h with
  | nil => cases ht
  | dangling s => exact absurd ht (by simp)
  | setting _ _ _ ih | noCheck _ ih | unknown _ _ _ _ ih => exact ih (by simpa using ht)
  | name hd _ ih =>
    obtain ht | ht := List.mem_cons.mp ht
    · cases ht
      exact hd
    · exact ih ht

/-- **Pieces that are not wrong can be written down in any order.** -/
theorem of_right (hps : ∀ p ∈ ps, ¬ p.IsWrong) (hd : ∀ text, .name text ∈ ps → ¬ Dashed text) :
    Pieces (ps.flatMap Piece.args) ps := by
  induction ps with
  | nil => exact .nil
  | cons p ps ih =>
    obtain ⟨hp, hps⟩ := List.forall_mem_cons.mp hps
    have h := ih hps fun text ht => hd text (List.mem_cons_of_mem _ ht)
    cases p with
    | name text => exact .name (hd text List.mem_cons_self) h
    | setting s text => exact .setting s text h
    | noCheck => exact .noCheck h
    | dangling s => exact absurd ⟨_, .dangling s⟩ hp
    | unknown text => exact absurd ⟨_, .unknown text⟩ hp

end Pieces

/-! ## What a command line is read as -/

namespace Item

theorem ofArg_of_dashed {arg : String} (hd : Dashed arg) (hc : arg ≠ "--no-check") :
    ofArg arg = .error (.unknownOption arg) := by
  have hprefix : "--".toList.isPrefixOf arg.toList := List.isPrefixOf_iff_prefix.mpr hd
  rw [ofArg, noCheckFlag, if_neg hc, if_pos hprefix]

theorem ofArg_of_not_dashed {arg : String} (hd : ¬ Dashed arg) : ofArg arg = .ok (.name arg) := by
  have hprefix : ¬ "--".toList.isPrefixOf arg.toList := mt List.isPrefixOf_iff_prefix.mp hd
  have hc : arg ≠ noCheckFlag := by
    rintro rfl
    exact hd ⟨_, rfl⟩
  rw [ofArg, if_neg hc, if_neg hprefix]

theorem ofArgs_flag (s : Setting) : ofArgs [s.flag] = .error (.needsValue s.flag) := by
  cases s <;> rfl

theorem ofArgs_flag_cons (s : Setting) (text : String) (args : List String) :
    ofArgs (s.flag :: text :: args) =
      (do let n ← s.read text; return setting s n :: (← ofArgs args)) := by
  cases s <;> rfl

theorem ofArgs_cons {arg : String} (h : ∀ s : Setting, arg ≠ s.flag) (args : List String) :
    ofArgs (arg :: args) = (do let i ← ofArg arg; return i :: (← ofArgs args)) := by
  simp only [ofArgs, Setting.ofFlag?_eq_none_iff.mpr h]

/-- **A command line is read piece by piece.** -/
theorem ofArgs_eq_mapM (h : Pieces args ps) : ofArgs args = ps.mapM Piece.item := by
  induction h with
  | nil => rfl
  | dangling s =>
    rw [ofArgs_flag]
    rfl
  | setting s text _ ih =>
    rw [ofArgs_flag_cons, List.mapM_cons, ih, Piece.item]
    cases s.read text <;> rfl
  | noCheck _ ih =>
    have hs (s : Setting) : "--no-check" ≠ s.flag := s.flag_ne_noCheck.symm
    rw [ofArgs_cons hs, List.mapM_cons, ih]
    rfl
  | unknown hd hs hc _ ih =>
    rw [ofArgs_cons hs, List.mapM_cons, ih, ofArg_of_dashed hd hc, Piece.item]
  | @name text hd _ _ _ ih =>
    have hs (s : Setting) : text ≠ s.flag := fun hs => hd (hs ▸ s.dashed_flag)
    rw [ofArgs_cons hs, List.mapM_cons, ih, ofArg_of_not_dashed hd, Piece.item]

end Item

theorem mapM_item_of_reads (h : List.Forall₂ Piece.Reads ps is) : ps.mapM Piece.item = .ok is := by
  induction h with
  | nil => rfl
  | cons hp _ ih =>
    rw [List.mapM_cons, Piece.item_eq_ok_iff.mpr hp, ih]
    rfl

theorem mapM_item_of_wrong {p : Piece} (hp : ps.find? (fun p => p.IsWrong) = some p)
    (he : p.Wrong e) : ps.mapM Piece.item = .error e := by
  induction ps with
  | nil => cases hp
  | cons q ps ih =>
    rw [List.mapM_cons]
    rw [List.find?_cons] at hp
    -- Either `q` is the piece itself, or it is read and the piece comes later.
    split at hp
    · cases hp
      rw [Piece.item_eq_error_iff.mpr he]
      rfl
    · rename_i hq
      obtain ⟨i, hi⟩ := Piece.not_isWrong_iff.mp (of_decide_eq_false hq)
      rw [Piece.item_eq_ok_iff.mpr hi, ih hp]
      rfl

theorem exists_reads (h : ∀ p ∈ ps, ¬ p.IsWrong) : ∃ is, List.Forall₂ Piece.Reads ps is := by
  induction ps with
  | nil => exact ⟨[], .nil⟩
  | cons p ps ih =>
    obtain ⟨hp, hps⟩ := List.forall_mem_cons.mp h
    obtain ⟨i, hi⟩ := Piece.not_isWrong_iff.mp hp
    obtain ⟨is, his⟩ := ih hps
    exact ⟨i :: is, .cons hi his⟩

/-! ## What a command line asks for -/

namespace Item

/-- The value that an item gives an option. -/
def value? (s : Setting) : Item → Option Nat
  | setting t n => if t = s then some n else none
  | _ => none

/-- The last value of an option, if it has one. -/
def last? (is : List Item) (s : Setting) : Option Nat := (is.filterMap (value? s)).getLast?

/-- **The specification that is asked for**: the last value of each option, and all else by
default. -/
def spec (is : List Item) : Spec where
  cacheSize := ((last? is .cacheSize).map UInt32.ofNat).getD ({} : Spec).cacheSize
  ways := ((last? is .ways).map UInt32.ofNat).getD ({} : Spec).ways
  maxCycles := (last? is .maxCycles).map UInt64.ofNat
  checkCoherence := decide (noCheck ∉ is)

theorem last?_concat (is : List Item) (i : Item) (s : Setting) :
    last? (is ++ [i]) s = (i.value? s).or (last? is s) := by
  rw [last?, List.filterMap_append]
  cases h : i.value? s <;> simp [h, last?]

theorem foldl_apply (is : List Item) : is.foldl apply {} = spec is := by
  induction is using List.reverseRecOn with
  | nil => rfl
  | append_singleton is i ih =>
    rw [List.foldl_append, ih]
    simp only [List.foldl_cons, List.foldl_nil, spec, last?_concat]
    cases i with
    | name text => simp [apply, value?]
    | noCheck => simp [apply, value?]
    | setting s n => cases s <;> simp [apply, Setting.apply, value?]

end Item

namespace Piece

theorem filterMap_eq {α : Type} {f : Piece → Option α} {g : Item → Option α}
    (hfg : ∀ p i, Reads p i → f p = g i) (h : List.Forall₂ Reads ps is) :
    ps.filterMap f = is.filterMap g := by
  induction h with
  | nil => rfl
  | cons hp _ ih => rw [List.filterMap_cons, List.filterMap_cons, hfg _ _ hp, ih]

theorem names_eq (h : List.Forall₂ Reads ps is) : ps.filterMap name? = is.filterMap Item.name? :=
  filterMap_eq (by rintro _ _ (_ | _ | _) <;> rfl) h

theorem values_eq (s : Setting) (h : List.Forall₂ Reads ps is) :
    (ps.filterMap (text? s)).filterMap (fun text => Text.numeral? 10 s.bound text.toList) =
      is.filterMap (Item.value? s) := by
  rw [List.filterMap_filterMap]
  refine filterMap_eq ?_ h
  rintro _ _ (_ | hn | _)
  · rfl
  · rename_i t text n
    by_cases ht : t = s
    · subst ht
      simp [text?, Item.value?, Setting.takes_iff.mp hn]
    · simp [text?, Item.value?, ht]
  · rfl

theorem noCheck_mem_iff (h : List.Forall₂ Reads ps is) : noCheck ∈ ps ↔ Item.noCheck ∈ is := by
  induction h with
  | nil => exact iff_of_false nofun nofun
  | cons hp _ ih =>
    rw [List.mem_cons, List.mem_cons, ih]
    cases hp <;> simp

end Piece

/-- **The same pieces in another order**, which keeps the order of the names, of the values of each
option and of the pieces that are wrong. -/
structure Moved (ps ps' : List Piece) : Prop where
  perm : ps'.Perm ps
  names : ps'.filterMap Piece.name? = ps.filterMap Piece.name?
  texts : ∀ s, ps'.filterMap (Piece.text? s) = ps.filterMap (Piece.text? s)
  wrong : ps'.filter (fun p => p.IsWrong) = ps.filter fun p => p.IsWrong

theorem Moved.spec_eq (h : Moved ps ps') (his : List.Forall₂ Piece.Reads ps is)
    (his' : List.Forall₂ Piece.Reads ps' is') : Item.spec is' = Item.spec is := by
  have hlast (s : Setting) : Item.last? is' s = Item.last? is s := by
    rw [Item.last?, Item.last?, ← Piece.values_eq s his, ← Piece.values_eq s his', h.texts]
  have hcheck : Item.noCheck ∈ is' ↔ Item.noCheck ∈ is := by
    rw [← Piece.noCheck_mem_iff his, ← Piece.noCheck_mem_iff his', h.perm.mem_iff]
  simp only [Item.spec, hlast, hcheck]

namespace Options

variable {o : Options}

theorem ofArgs_of_names {dir testName : String} (h : Pieces args ps)
    (his : List.Forall₂ Piece.Reads ps is) (hn : ps.filterMap Piece.name? = [dir, testName]) :
    ofArgs args = .ok ⟨dir, testName, Item.spec is⟩ := by
  rw [Piece.names_eq his] at hn
  rw [ofArgs, Item.ofArgs_eq_mapM h, mapM_item_of_reads his, ← Item.foldl_apply]
  simp only [bind, Except.bind, hn]
  rfl

theorem ofArgs_of_length_ne (h : Pieces args ps) (his : List.Forall₂ Piece.Reads ps is)
    (hn : (ps.filterMap Piece.name?).length ≠ 2) : ofArgs args = .error .wrongUsage := by
  rw [Piece.names_eq his] at hn
  rw [ofArgs, Item.ofArgs_eq_mapM h, mapM_item_of_reads his]
  simp only [bind, Except.bind]
  split
  · rename_i hnames
    rw [hnames] at hn
    exact absurd rfl hn
  · rfl

theorem ofArgs_of_wrong {p : Piece} (h : Pieces args ps)
    (hp : ps.find? (fun p => p.IsWrong) = some p) (he : p.Wrong e) : ofArgs args = .error e := by
  rw [ofArgs, Item.ofArgs_eq_mapM h, mapM_item_of_wrong hp he]
  rfl

/-- **How reading ends**: at a piece that is wrong, for a wrong number of names, or well. -/
theorem ofArgs_cases (h : Pieces args ps) :
    (∃ p e, ps.find? (fun p => p.IsWrong) = some p ∧ p.Wrong e ∧ ofArgs args = .error e) ∨
    (∀ p ∈ ps, ¬ p.IsWrong) ∧ ∃ is, List.Forall₂ Piece.Reads ps is ∧
      ((ps.filterMap Piece.name?).length ≠ 2 ∧ ofArgs args = .error .wrongUsage ∨
      ∃ dir testName, ps.filterMap Piece.name? = [dir, testName] ∧
        ofArgs args = .ok ⟨dir, testName, Item.spec is⟩) := by
  cases hfirst : ps.find? fun p => p.IsWrong with
  | some p =>
    have hp := List.find?_some hfirst
    obtain ⟨e, he⟩ := of_decide_eq_true hp
    exact .inl ⟨p, e, rfl, he, ofArgs_of_wrong h hfirst he⟩
  | none =>
    have hps : ∀ p ∈ ps, ¬ p.IsWrong := by simpa using hfirst
    obtain ⟨is, his⟩ := exists_reads hps
    refine .inr ⟨hps, is, his, ?_⟩
    by_cases hn : (ps.filterMap Piece.name?).length = 2
    · obtain ⟨dir, testName, hnames⟩ := List.length_eq_two.mp hn
      exact .inr ⟨dir, testName, hnames, ofArgs_of_names h his hnames⟩
    · exact .inl ⟨hn, ofArgs_of_length_ne h his hn⟩

/-- **Pieces may change places**, as long as those of one kind keep their order. -/
theorem ofArgs_of_moved (h : Pieces args ps) (h' : Pieces args' ps') (hm : Moved ps ps') :
    ofArgs args' = ofArgs args := by
  -- The first piece that is wrong is the first of those that are, and they keep their order.
  have hfirst : ps'.find? (fun p => p.IsWrong) = ps.find? fun p => p.IsWrong := by
    rw [← List.head?_filter, hm.wrong, List.head?_filter]
  obtain ⟨p, e, hp, he, hargs⟩ | ⟨hps, is, his, hargs⟩ := ofArgs_cases h
  · rw [hargs, ofArgs_of_wrong h' (hfirst.trans hp) he]
  · obtain ⟨is', his'⟩ := exists_reads fun p hp => hps p (hm.perm.mem_iff.mp hp)
    obtain ⟨hn, hargs⟩ | ⟨dir, testName, hn, hargs⟩ := hargs
    · rw [hargs, ofArgs_of_length_ne h' his' (hm.names ▸ hn)]
    · rw [hargs, ofArgs_of_names h' his' (hm.names.trans hn), hm.spec_eq his his']

/-- **What a command line asks for.** It is cut into pieces from left to right. There is a result if
no piece is wrong and two of them are names; these are the directory and the test, and the
specification has the last value of each option. Otherwise the first piece that is wrong is the
error, and the wrong number of names only if there is none. Pieces may change places as long as the
names, the values of each option and the pieces that are wrong keep their order, and pieces that are
not wrong can be written down in any order. -/
theorem ofArgs_pieces (args : List String) : (∃ ps, Pieces args ps) ∧ ∀ ps, Pieces args ps →
    ((∃ o, ofArgs args = .ok o) ↔
      (∀ p ∈ ps, ¬ p.IsWrong) ∧ (ps.filterMap Piece.name?).length = 2) ∧
    (∀ o, ofArgs args = .ok o → ps.filterMap Piece.name? = [o.dir, o.testName] ∧
      ∃ is, List.Forall₂ Piece.Reads ps is ∧ o.spec = Item.spec is) ∧
    (∀ e, ofArgs args = .error e ↔
      (∃ p, ps.find? (fun p => p.IsWrong) = some p ∧ p.Wrong e) ∨
        (∀ p ∈ ps, ¬ p.IsWrong) ∧ (ps.filterMap Piece.name?).length ≠ 2 ∧ e = .wrongUsage) ∧
    (∀ args' ps', Pieces args' ps' → Moved ps ps' → ofArgs args' = ofArgs args) ∧
    ((∀ p ∈ ps, ¬ p.IsWrong) → ∀ ps' : List Piece, ps'.Perm ps →
      Pieces (ps'.flatMap Piece.args) ps') := by
  refine ⟨exists_pieces args, fun ps h => ⟨⟨?_, ?_⟩, ?_, fun e => ⟨?_, ?_⟩,
    fun _ _ h' hm => ofArgs_of_moved h h' hm, fun hps ps' hperm => ?_⟩⟩
  · rintro ⟨o, ho⟩
    obtain ⟨_, _, _, _, hargs⟩ | ⟨hps, _, _, ⟨_, hargs⟩ | ⟨_, _, hn, _⟩⟩ := ofArgs_cases h
    · cases ho.symm.trans hargs
    · cases ho.symm.trans hargs
    · exact ⟨hps, congrArg List.length hn⟩
  · rintro ⟨hps, hlen⟩
    obtain ⟨is, his⟩ := exists_reads hps
    obtain ⟨_, _, hn⟩ := List.length_eq_two.mp hlen
    exact ⟨_, ofArgs_of_names h his hn⟩
  · intro o ho
    obtain ⟨_, _, _, _, hargs⟩ | ⟨_, is, his, ⟨_, hargs⟩ | ⟨_, _, hn, hargs⟩⟩ := ofArgs_cases h
    · cases ho.symm.trans hargs
    · cases ho.symm.trans hargs
    · cases ho.symm.trans hargs
      exact ⟨hn, is, his, rfl⟩
  · intro ho
    obtain ⟨p, _, hp, he, hargs⟩ | ⟨hps, _, _, ⟨hn, hargs⟩ | ⟨_, _, _, hargs⟩⟩ := ofArgs_cases h
    · cases ho.symm.trans hargs
      exact .inl ⟨p, hp, he⟩
    · cases ho.symm.trans hargs
      exact .inr ⟨hps, hn, rfl⟩
    · cases ho.symm.trans hargs
  · rintro (⟨p, hp, he⟩ | ⟨hps, hn, rfl⟩)
    · exact ofArgs_of_wrong h hp he
    · obtain ⟨is, his⟩ := exists_reads hps
      exact ofArgs_of_length_ne h his hn
  · exact .of_right (fun p hp => hps p (hperm.mem_iff.mp hp))
      fun text ht => h.not_dashed (hperm.mem_iff.mp ht)

/-- Options that are moved behind the names, and one that takes another one as its value. -/
theorem ofArgs_pieces_moved :
    ofArgs ["traces", "b", "--no-check", "--assoc", "4", "--assoc", "+8"] =
      .ok ⟨"traces", "b", { ways := 8, checkCoherence := false }⟩ ∧
    ofArgs ["traces", "--assoc", "--no-check", "--cores"] =
      .error (.invalidValue "--assoc" "--no-check") := by
  have h : Pieces ["--assoc", "4", "traces", "--no-check", "--assoc", "+8", "b"]
      [.setting .ways "4", .name "traces", .noCheck, .setting .ways "+8", .name "b"] :=
    .setting .ways _ <| .name (by decide) <| .noCheck <| .setting .ways _ <| .name (by decide) .nil
  have h' : Pieces ["traces", "b", "--no-check", "--assoc", "4", "--assoc", "+8"]
      [.name "traces", .name "b", .noCheck, .setting .ways "4", .setting .ways "+8"] :=
    .name (by decide) <| .name (by decide) <| .noCheck <| .setting .ways _ <|
      .setting .ways _ .nil
  have hwrong : Pieces ["traces", "--assoc", "--no-check", "--cores"]
      [.name "traces", .setting .ways "--no-check", .unknown "--cores"] :=
    .name (by decide) <| .setting .ways _ <|
      .unknown (by decide) (fun s => by cases s <;> decide) (by decide) .nil
  obtain ⟨-, -, -, hmoved, -⟩ := (ofArgs_pieces _).2 _ h
  obtain ⟨-, -, herror, -⟩ := (ofArgs_pieces _).2 _ hwrong
  constructor
  · rw [hmoved _ _ h' ⟨by decide, rfl, fun s => by cases s <;> rfl, by decide +kernel⟩]
    rfl
  · refine (herror _).mpr (.inl ⟨.setting .ways "--no-check", by decide +kernel, .setting ?_⟩)
    exact (Setting.read_eq_error_iff.mp rfl).1

end Options

end Snooping
