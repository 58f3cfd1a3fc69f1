/-
  What an interner knows.

  The table and the array of an interner say the same: a text has the number of its place in
  the array.  So the names that were given out never change, and different texts never share
  one, however many texts are interned in between.

  * `Interner.Call`, `Interner.after`: calls on an interner, and the interner after them;
  * `Interner.texts`: the reserved texts and those that were interned, each once, in the order
    in which they came;
  * `Interner.Holds`: an interner has certain texts, in that order;
  * `Interner.Naming`: what an interner answers after some calls.

  Main statement: `naming_after`, from what one text adds (`Holds.add`) and, over the calls,
  `holds_after`.
-/
import Arbor.Interner
import Mathlib.Data.Finset.Card
import Mathlib.Data.List.Induction
import Mathlib.Data.List.Nodup

namespace Arbor

namespace Interner

/-! ## Calls -/

/-- A call on an interner. -/
inductive Call where
  | intern (s : String)
  | find? (s : String)
  | lookup (n : Name)
  | size

/-- The interner after a call; only `intern` changes it. -/
def Call.step (i : Interner) : Call → Interner
  | intern s => (i.intern s).2
  | find? _ | lookup _ | size => i

/-- The text that a call interns. -/
def Call.interned? : Call → Option String
  | intern s => some s
  | find? _ | lookup _ | size => none

/-- A new interner after some calls. -/
def after (calls : List Call) : Interner := calls.foldl Call.step initial

/-- The texts that were interned, in order and with repetitions. -/
def interned (calls : List Call) : List String := calls.filterMap Call.interned?

/-- The reserved texts and the interned ones, in the order in which they came first. -/
def texts (calls : List Call) : List String := (Name.reserved ++ interned calls).eraseDups

variable {i : Interner} {calls : List Call} {ts : List String} {s t : String} {n : Name} {k : Nat}

/-! ## What an interner holds -/

/-- Texts with one more at the end, unless it is among them. -/
def noted (ts : List String) (s : String) : List String := if s ∈ ts then ts else ts ++ [s]

/-- An interner has just these texts, numbered in this order. -/
structure Holds (ts : List String) (i : Interner) : Prop where
  nodup : ts.Nodup
  strings : i.strings = ts.toArray
  names : ∀ s n, i.names.get? s = some n ↔ ts[n.index]? = some s

namespace Holds

theorem empty : Holds [] empty where
  nodup := List.nodup_nil
  strings := rfl
  names := fun _ _ => ⟨nofun, nofun⟩

theorem size (h : Holds ts i) : i.size = ts.length := congrArg Array.size h.strings

theorem find?_iff (h : Holds ts i) : i.find? s = some n ↔ ts[n.index]? = some s := h.names s n

theorem lookup (h : Holds ts i) (n : Name) : i.lookup n = (ts[n.index]?).getD "" := by
  rw [Interner.lookup, h.strings, Array.getD_eq_getD_getElem?, List.getElem?_toArray]

/-- A text is found if the interner has it. -/
theorem isSome_find?_iff (h : Holds ts i) : (i.find? s).isSome = true ↔ s ∈ ts := by
  rw [Option.isSome_iff_exists, List.mem_iff_getElem?]
  exact ⟨fun ⟨n, hn⟩ => ⟨n.index, h.find?_iff.1 hn⟩, fun ⟨k, hk⟩ => ⟨⟨k⟩, h.find?_iff.2 hk⟩⟩

theorem find?_eq_none_iff (h : Holds ts i) : i.find? s = none ↔ s ∉ ts := by
  rw [← h.isSome_find?_iff, Option.not_isSome_iff_eq_none]

/-- A new text has the number of the texts before it, which keep theirs. -/
theorem getElem?_concat_iff (hs : s ∉ ts) :
    (ts ++ [s])[k]? = some t ↔ if s = t then k = ts.length else ts[k]? = some t := by
  split
  · next hst =>
    subst hst
    constructor
    · intro hk
      have hle : k < (ts ++ [s]).length := (List.getElem?_eq_some_iff.1 hk).1
      have hge : ¬k < ts.length := fun hlt =>
        hs (List.mem_of_getElem? (List.getElem?_append_left hlt ▸ hk))
      rw [List.length_append, List.length_singleton] at hle
      omega
    · rintro rfl
      exact List.getElem?_concat_length
  · next hst =>
    rw [List.getElem?_append]
    split
    · rfl
    · next hk =>
      rw [List.getElem?_eq_none (Nat.le_of_not_lt hk), List.getElem?_singleton]
      split
      · exact ⟨fun h => absurd (Option.some_inj.1 h) hst, nofun⟩
      · rfl

/-- **What one text adds**: its own number, and nothing else. -/
theorem add (h : Holds ts i) (hs : s ∉ ts) : Holds (ts ++ [s]) (i.add s) where
  nodup := List.concat_eq_append ▸ h.nodup.concat hs
  strings := by rw [Interner.add, h.strings, List.push_toArray]
  names := by
    intro t n
    have hsize : i.strings.size = ts.length := h.size
    rw [getElem?_concat_iff hs, Interner.add, Table.get?_insert, hsize]
    split
    · rw [Option.some_inj]
      exact ⟨fun hn => hn ▸ rfl, fun hn => hn ▸ rfl⟩
    · exact h.names t n

/-- Texts that are all new are numbered as they come. -/
theorem addAll {us : List String} (h : Holds ts i) (hus : (ts ++ us).Nodup) :
    Holds (ts ++ us) (us.foldl Interner.add i) := by
  induction us generalizing i ts with
  | nil => rwa [List.append_nil]
  | cons u us ih =>
    have hu : u ∉ ts := fun hu => (List.nodup_append.1 hus).2.2 u hu u List.mem_cons_self rfl
    rw [List.append_cons] at hus ⊢
    exact ih (h.add hu) hus

theorem initial : Holds Name.reserved initial := empty.addAll (by decide)

/-- **What interning keeps**: the texts with their numbers, and the name that is given out is
    the number of the text. -/
theorem intern (h : Holds ts i) (s : String) :
    Holds (noted ts s) (i.intern s).2 ∧ (noted ts s)[(i.intern s).1.index]? = some s := by
  cases hfound : i.find? s with
  | some n =>
    have hs := h.find?_iff.1 hfound
    rw [Interner.intern, hfound, noted, if_pos (List.mem_of_getElem? hs)]
    exact ⟨h, hs⟩
  | none =>
    have hs := h.find?_eq_none_iff.1 hfound
    rw [Interner.intern, hfound, noted, if_neg hs]
    exact ⟨h.add hs, (getElem?_concat_iff hs).2 (if_pos rfl ▸ h.size)⟩

end Holds

/-! ## The texts of a history -/

theorem interned_append (calls more : List Call) :
    interned (calls ++ more) = interned calls ++ interned more := List.filterMap_append

theorem mem_interned : s ∈ interned calls ↔ Call.intern s ∈ calls := by
  rw [interned, List.mem_filterMap]
  constructor
  · rintro ⟨c, hc, hs⟩
    cases c with
    | intern t => exact Option.some_inj.1 hs ▸ hc
    | find? | lookup | size => cases hs
  · exact fun hs => ⟨_, hs, rfl⟩

theorem mem_texts : s ∈ texts calls ↔ s ∈ Name.reserved ∨ Call.intern s ∈ calls := by
  rw [texts, List.mem_eraseDups, List.mem_append, mem_interned]

/-- The texts after more calls are those before, and then the new ones. -/
theorem texts_append (calls more : List Call) : texts (calls ++ more) =
    texts calls ++ ((interned more).removeAll (Name.reserved ++ interned calls)).eraseDups := by
  rw [texts, interned_append, ← List.append_assoc]
  exact List.eraseDups_append

theorem eraseDups_concat (ts : List String) (s : String) :
    (ts ++ [s]).eraseDups = noted ts.eraseDups s := by
  rw [List.eraseDups_append, noted]
  by_cases hs : s ∈ ts
  · simp [List.removeAll, hs]
  · simp [List.removeAll, List.eraseDups_cons, hs]

theorem texts_intern (calls : List Call) (s : String) :
    texts (calls ++ [.intern s]) = noted (texts calls) s := by
  rw [texts, interned_append, ← List.append_assoc]
  exact eraseDups_concat _ s

theorem texts_of_interned?_eq_none {c : Call} (h : c.interned? = none) (calls : List Call) :
    texts (calls ++ [c]) = texts calls := by
  rw [texts_append, interned, List.filterMap_cons_none h]
  exact List.append_nil _

theorem after_concat (calls : List Call) (c : Call) :
    after (calls ++ [c]) = Call.step (after calls) c := List.foldl_concat ..

/-- What an interner holds after some calls. -/
theorem holds_after (calls : List Call) : Holds (texts calls) (after calls) := by
  induction calls using List.reverseRecOn with
  | nil => exact Holds.initial
  | append_singleton calls c ih =>
    rw [after_concat]
    cases c with
    | intern s =>
      rw [texts_intern]
      exact (ih.intern s).1
    | find? | lookup | size =>
      rw [texts_of_interned?_eq_none rfl]
      exact ih

/-- The name of a text that was interned is its place among the texts ever after. -/
theorem getElem?_texts_intern (calls : List Call) (s : String) (later : List Call) :
    (texts (calls ++ .intern s :: later))[((after calls).intern s).1.index]? = some s := by
  have hs := ((holds_after calls).intern s).2
  rw [← texts_intern] at hs
  rw [List.append_cons, texts_append]
  exact List.getElem?_append_left (List.getElem?_eq_some_iff.1 hs).1 ▸ hs

/-- The texts begin with the reserved ones. -/
theorem texts_eq (calls : List Call) : texts calls =
    Name.reserved ++ ((interned calls).removeAll Name.reserved).eraseDups := texts_append [] calls

theorem getElem?_texts_reserved (h : Name.reserved[k]? = some s) : (texts calls)[k]? = some s := by
  rw [texts_eq, List.getElem?_append_left (List.getElem?_eq_some_iff.1 h).1, h]

/-- Besides the reserved texts there are those that were interned and are not reserved. -/
theorem length_texts (calls : List Call) : (texts calls).length =
    11 + ((interned calls).toFinset.filter (· ∉ Name.reserved)).card := by
  have hnodup := (holds_after calls).nodup
  rw [texts_eq] at hnodup ⊢
  rw [List.length_append, ← List.toFinset_card_of_nodup (List.nodup_append.1 hnodup).2.1]
  congr 2
  ext s
  simp [List.removeAll]

/-! ## The fixed names -/

/-- The names with a fixed text. -/
def fixed : List Name :=
  [.empty, .this, .add, .subtract, .multiply, .divide, .less, .greater, .equal, .and, .or]

theorem fixed_reserved : ∀ q ∈ fixed.zip Name.reserved, Name.reserved[q.1.index]? = some q.2 := by
  decide

/-! ## Names -/

/-- What an interner answers after some calls. -/
structure Naming (calls : List Call) : Prop where
  /-- A name reads back as its text, at once and ever after. -/
  lookup_intern : ∀ s later,
    (after (calls ++ .intern s :: later)).lookup ((after calls).intern s).1 = s
  /-- Of two texts that are interned one after the other, the names are the same just if the
      texts are. -/
  intern_eq_iff : ∀ s t later,
    ((after calls).intern s).1 = ((after (calls ++ .intern s :: later)).intern t).1 ↔ s = t
  /-- The texts that are found are the reserved ones and those that were interned. -/
  isSome_find? : ∀ s,
    ((after calls).find? s).isSome = true ↔ s ∈ Name.reserved ∨ Call.intern s ∈ calls
  /-- They are found under the names that they were given. -/
  find?_interned : ∀ before s later, calls = before ++ .intern s :: later →
    (after calls).find? s = some ((after before).intern s).1
  find?_reserved : ∀ n s, Name.reserved[n.index]? = some s → (after calls).find? s = some n
  /-- Names are numbered in the order in which their texts came first. -/
  find?_iff : ∀ s n, (after calls).find? s = some n ↔ (texts calls)[n.index]? = some s
  size : (after calls).size = 11 + ((interned calls).toFinset.filter (· ∉ Name.reserved)).card
  /-- A name that was not given out reads as the empty text. -/
  lookup_unissued : ∀ n, (after calls).size ≤ n.index → (after calls).lookup n = ""
  /-- The fixed names stand for the reserved texts. -/
  lookup_fixed : fixed.map (after calls).lookup = Name.reserved
  /-- A call that only asks changes nothing. -/
  asking : ∀ c : Call, c.interned? = none → after (calls ++ [c]) = after calls

/-- **The names of an interner are stable and one for each text**: this holds after any calls. -/
theorem naming_after (calls : List Call) : Naming calls where
  lookup_intern := fun s later => by
    rw [(holds_after _).lookup, getElem?_texts_intern, Option.getD_some]
  intern_eq_iff := fun s t later => by
    have hs := getElem?_texts_intern calls s (later ++ [.intern t])
    have ht := getElem?_texts_intern (calls ++ .intern s :: later) t []
    rw [List.append_assoc, List.cons_append] at ht
    refine ⟨fun heq => ?_, ?_⟩
    · rw [heq, ht] at hs
      exact (Option.some_inj.1 hs).symm
    · rintro rfl
      have hlt := (List.getElem?_eq_some_iff.1 hs).1
      exact congrArg Name.mk ((List.getElem?_inj hlt (holds_after _).nodup).1 (hs.trans ht.symm))
  isSome_find? := fun s => by rw [(holds_after calls).isSome_find?_iff, mem_texts]
  find?_interned := by
    rintro before s later rfl
    exact (holds_after _).find?_iff.2 (getElem?_texts_intern before s later)
  find?_reserved := fun n s h => (holds_after calls).find?_iff.2 (getElem?_texts_reserved h)
  find?_iff := fun s n => (holds_after calls).find?_iff
  size := by
    rw [(holds_after calls).size, length_texts]
  lookup_unissued := fun n hn => by
    rw [(holds_after calls).size] at hn
    rw [(holds_after calls).lookup, List.getElem?_eq_none hn, Option.getD_none]
  lookup_fixed := by
    have hread : (fixed.zip Name.reserved).map (fun q => (after calls).lookup q.1) =
        (fixed.zip Name.reserved).map Prod.snd :=
      List.map_congr_left fun q hq => by
        rw [(holds_after calls).lookup, getElem?_texts_reserved (fixed_reserved q hq),
          Option.getD_some]
    exact hread
  asking := fun c hc => by
    rw [after_concat]
    cases c with
    | intern s => cases hc
    | find? | lookup | size => rfl

end Interner

end Arbor
