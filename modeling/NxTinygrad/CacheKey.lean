import NxTinygrad.Lib.BigEndian
import NxTinygrad.Lib.Delimited
import Mathlib.Data.List.Sort
import Mathlib.Data.Nat.Digits.Lemmas

/- The cache key of graph_cache_key.ex, over the canonical JSON of graph.ex. -/
namespace NxTinygrad.CacheKey
open BigEndian (Bytes)
open Delimited

set_option maxRecDepth 2000

def ascii (s : String) : Bytes := s.toList.map fun c => UInt8.ofNat c.toNat

inductive Literal (F : Type) where
  | null
  | bool (b : Bool)
  | int (n : Int)
  | float (f : F)

/-- What a graph is made of. A string stands as its UTF-8 bytes; an atom that is not `nil`, `true`
    or `false` is written as the string of its name and is a `str` here. -/
inductive Term (F : Type) where
  | literal (l : Literal F)
  | str (s : Bytes)
  | list (items : List (Term F))
  | map (fields : List (Bytes × Term F))

structure FloatText (F : Type) where
  text : F → Bytes
  injective : Function.Injective text
  chars : ∀ f, ∀ b ∈ text f, b ∈ ascii "0123456789+-.e"
  point : ∀ f, 0x2e ∈ text f

def digit (n : Nat) : UInt8 := UInt8.ofNat (48 + n)

/-- `Integer.to_string` of a number that is not negative. -/
def decimal (n : Nat) : Bytes :=
  if n = 0 then ascii "0" else (Nat.digits 10 n).reverse.map digit

def intText : Int → Bytes
  | .ofNat n => decimal n
  | .negSucc n => ascii "-" ++ decimal (n + 1)

def word : Option Bool → Bytes
  | none => ascii "null"
  | some true => ascii "true"
  | some false => ascii "false"

variable {F : Type} (floats : FloatText F)

def Literal.text : Literal F → Bytes
  | .null => word none
  | .bool b => word (some b)
  | .int n => intText n
  | .float f => floats.text f

def upperHex (n : Nat) : UInt8 := UInt8.ofNat (if n < 10 then 48 + n else 55 + n)

/-- One byte of a string: control characters and the two marks are escaped, the bytes of longer
    characters are copied. -/
def escape (b : UInt8) : Bytes :=
  if b = 0x22 then ascii "\\\""
  else if b = 0x5c then ascii "\\\\"
  else if b = 0x08 then ascii "\\b"
  else if b = 0x09 then ascii "\\t"
  else if b = 0x0a then ascii "\\n"
  else if b = 0x0c then ascii "\\f"
  else if b = 0x0d then ascii "\\r"
  else if b < 0x20 then ascii "\\u00" ++ [upperHex (b.toNat / 16), upperHex (b.toNat % 16)]
  else [b]

def quote (s : Bytes) : Bytes := 0x22 :: (s.flatMap escape ++ [0x22])

def keyLe {V : Type} (f g : Bytes × V) : Prop := f.1.map UInt8.toNat ≤ g.1.map UInt8.toNat

instance {V : Type} : DecidableRel (@keyLe V) := fun _ _ => inferInstanceAs (Decidable (_ ≤ _))

def sortByKey {V : Type} (fields : List (Bytes × V)) : List (Bytes × V) := fields.insertionSort keyLe

def entry (f : Bytes × Bytes) : Bytes := quote f.1 ++ 0x3a :: f.2

mutual
def canonicalJson : Term F → Bytes
  | .literal l => l.text floats
  | .str s => quote s
  | .list items => 0x5b :: (separated 0x2c (canonicalItems items) ++ [0x5d])
  | .map fields =>
      0x7b :: (separated 0x2c ((sortByKey (canonicalFields fields)).map entry) ++ [0x7d])

def canonicalItems : List (Term F) → List Bytes
  | [] => []
  | t :: rest => canonicalJson t :: canonicalItems rest

def canonicalFields : List (Bytes × Term F) → List (Bytes × Bytes)
  | [] => []
  | (k, t) :: rest => (k, canonicalJson t) :: canonicalFields rest
end

mutual
inductive Same : Term F → Term F → Prop
  | literal (l : Literal F) : Same (.literal l) (.literal l)
  | str (s : Bytes) : Same (.str s) (.str s)
  | list {xs ys : List (Term F)} : SameItems xs ys → Same (.list xs) (.list ys)
  | map {xs xs' ys' ys : List (Bytes × Term F)} : xs.Perm xs' → SameFields xs' ys' →
      ys'.Perm ys → Same (.map xs) (.map ys)

inductive SameItems : List (Term F) → List (Term F) → Prop
  | nil : SameItems [] []
  | item {x y : Term F} {xs ys : List (Term F)} : Same x y → SameItems xs ys →
      SameItems (x :: xs) (y :: ys)

inductive SameFields : List (Bytes × Term F) → List (Bytes × Term F) → Prop
  | done : SameFields [] []
  | field {k : Bytes} {x y : Term F} {xs ys : List (Bytes × Term F)} : Same x y → SameFields xs ys →
      SameFields ((k, x) :: xs) ((k, y) :: ys)
end

mutual
def Term.Proper : Term F → Prop
  | .literal _ => True
  | .str _ => True
  | .list items => ProperItems items
  | .map fields => (fields.map Prod.fst).Nodup ∧ ProperFields fields

def ProperItems : List (Term F) → Prop
  | [] => True
  | t :: rest => t.Proper ∧ ProperItems rest

def ProperFields : List (Bytes × Term F) → Prop
  | [] => True
  | (_, t) :: rest => t.Proper ∧ ProperFields rest
end

def numerals : Bytes := ascii "-0123456789"

def ofDecimal (text : Bytes) : Nat := Nat.ofDigits 10 (text.map fun b => b.toNat - 48).reverse

theorem digit_back (d : Nat) (small : d < 10) : (digit d).toNat - 48 = d := by
  unfold digit
  rw [UInt8.toNat_ofNat']
  omega

theorem ofDecimal_decimal (n : Nat) : ofDecimal (decimal n) = n := by
  unfold decimal
  split
  · rename_i zero
    subst zero
    decide
  · have back : ((Nat.digits 10 n).map digit).map (fun b => b.toNat - 48) = Nat.digits 10 n := by
      rw [List.map_map]
      apply (List.map_congr_left _).trans (List.map_id _)
      intro d mem
      exact digit_back d (Nat.digits_lt_base (by decide) mem)
    rw [ofDecimal, List.map_reverse, List.map_reverse, List.reverse_reverse, back, Nat.ofDigits_digits]

theorem decimal_injective : Function.Injective decimal := by
  intro m n h
  rw [← ofDecimal_decimal m, ← ofDecimal_decimal n, h]

theorem digit_numeral : ∀ d < 10, digit d ∈ ascii "0123456789" := by decide

theorem decimal_chars {n : Nat} {b : UInt8} (mem : b ∈ decimal n) : b ∈ ascii "0123456789" := by
  unfold decimal at mem
  split at mem
  · exact (by decide : ∀ b ∈ ascii "0", b ∈ ascii "0123456789") b mem
  · obtain ⟨d, found, rfl⟩ := List.mem_map.mp mem
    exact digit_numeral d (Nat.digits_lt_base (by decide) (List.mem_reverse.mp found))

theorem decimal_ne_nil (n : Nat) : decimal n ≠ [] := by
  unfold decimal
  split
  · decide
  · rename_i positive
    simpa [Nat.digits_eq_nil_iff_eq_zero] using positive

theorem intText_chars {n : Int} {b : UInt8} (mem : b ∈ intText n) : b ∈ numerals := by
  have digits : ∀ b ∈ ascii "0123456789", b ∈ numerals := by decide
  cases n with
  | ofNat n => exact digits b (decimal_chars mem)
  | negSucc n =>
    rcases List.mem_append.mp mem with sign | rest
    · exact (by decide : ∀ b ∈ ascii "-", b ∈ numerals) b sign
    · exact digits b (decimal_chars rest)

theorem decimal_unsigned (n : Nat) (rest : Bytes) : decimal n ≠ ascii "-" ++ rest := by
  intro h
  have sign : 0x2d ∈ decimal n := by
    rw [h]
    exact List.mem_append_left _ (by decide)
  exact absurd (decimal_chars sign) (by decide)

theorem intText_injective : Function.Injective intText := by
  intro m n h
  cases m with
  | ofNat m => cases n with
    | ofNat n => exact congrArg Int.ofNat (decimal_injective h)
    | negSucc n => exact absurd h (decimal_unsigned m _)
  | negSucc m => cases n with
    | ofNat n => exact absurd h.symm (decimal_unsigned n _)
    | negSucc n =>
      have same := decimal_injective (List.append_cancel_left h)
      rw [Nat.succ.inj same]

theorem intText_ne_nil (n : Int) : intText n ≠ [] := by
  cases n with
  | ofNat n => exact decimal_ne_nil n
  | negSucc n => simp [intText, decimal_ne_nil]

theorem word_injective : Function.Injective word := by
  intro v w
  rcases v with - | b <;> rcases w with - | c <;> try cases b
  all_goals try cases c
  all_goals decide

theorem word_letter (w : Option Bool) : ∃ b ∈ word w, b ∉ numerals := by
  rcases w with - | b
  · decide
  · cases b <;> decide

theorem word_pointless (w : Option Bool) : 0x2e ∉ word w := by
  rcases w with - | b
  · decide
  · cases b <;> decide

theorem int_ne_word (n : Int) (w : Option Bool) : intText n ≠ word w := by
  intro h
  obtain ⟨b, mem, letter⟩ := word_letter w
  rw [← h] at mem
  exact letter (intText_chars mem)

theorem int_pointless (n : Int) : 0x2e ∉ intText n := by
  intro mem
  exact absurd (intText_chars mem) (by decide)

theorem float_ne {text : Bytes} (pointless : 0x2e ∉ text) (f : F) : floats.text f ≠ text := by
  rintro rfl
  exact pointless (floats.point f)

theorem literal_injective : Function.Injective (Literal.text floats) := by
  intro l l' h
  cases l with
  | null => cases l' with
    | null => rfl
    | bool b => exact absurd (word_injective h : none = some b) (by simp)
    | int n => exact absurd h.symm (int_ne_word n none)
    | float f => exact absurd h.symm (float_ne floats (word_pointless none) f)
  | bool b => cases l' with
    | null => exact absurd (word_injective h : some b = none) (by simp)
    | bool b' => exact congrArg Literal.bool (Option.some.inj (word_injective h))
    | int n => exact absurd h.symm (int_ne_word n (some b))
    | float f => exact absurd h.symm (float_ne floats (word_pointless (some b)) f)
  | int n => cases l' with
    | null => exact absurd h (int_ne_word n none)
    | bool b => exact absurd h (int_ne_word n (some b))
    | int m => exact congrArg Literal.int (intText_injective h)
    | float f => exact absurd h.symm (float_ne floats (int_pointless n) f)
  | float f => cases l' with
    | null => exact absurd h (float_ne floats (word_pointless none) f)
    | bool b => exact absurd h (float_ne floats (word_pointless (some b)) f)
    | int n => exact absurd h (float_ne floats (int_pointless n) f)
    | float f' => exact congrArg Literal.float (floats.injective h)

def marks : Bytes := ascii ",:[]{}\"\n"

theorem word_plain (w : Option Bool) : ∀ b ∈ word w, b ∉ marks := by
  rcases w with - | b
  · decide
  · cases b <;> decide

theorem literal_plain (l : Literal F) : ∀ b ∈ l.text floats, b ∉ marks := by
  cases l with
  | null => exact word_plain none
  | bool b => exact word_plain (some b)
  | int n =>
    intro b mem
    exact (by decide : ∀ b ∈ numerals, b ∉ marks) b (intText_chars mem)
  | float f =>
    intro b mem
    exact (by decide : ∀ b ∈ ascii "0123456789+-.e", b ∉ marks) b (floats.chars f b mem)

theorem literal_ne_nil (l : Literal F) : l.text floats ≠ [] := by
  cases l with
  | null => exact (List.ne_nil_of_mem (word_letter none).choose_spec.1)
  | bool b => exact (List.ne_nil_of_mem (word_letter (some b)).choose_spec.1)
  | int n => exact intText_ne_nil n
  | float f => exact List.ne_nil_of_mem (floats.point f)

def hexValue (b : UInt8) : Nat := if b.toNat < 58 then b.toNat - 48 else b.toNat - 55

def unescaped (c : UInt8) : UInt8 :=
  if c = 0x62 then 0x08 else if c = 0x74 then 0x09 else if c = 0x6e then 0x0a
  else if c = 0x66 then 0x0c else if c = 0x72 then 0x0d else c

def unescape : Bytes → Option (UInt8 × Bytes)
  | [] => none
  | b :: rest =>
      if b = 0x5c then
        match rest with
        | 0x75 :: _ :: _ :: high :: low :: rest =>
            some (UInt8.ofNat (hexValue high * 16 + hexValue low), rest)
        | c :: rest => some (unescaped c, rest)
        | [] => none
      else some (b, rest)

theorem hex_back : ∀ n < 32,
    UInt8.ofNat (hexValue (upperHex (n / 16)) * 16 + hexValue (upperHex (n % 16))) = UInt8.ofNat n := by
  decide

theorem unescape_escape (b : UInt8) (rest : Bytes) : unescape (escape b ++ rest) = some (b, rest) := by
  unfold escape
  split_ifs with h h h h h h h h
  all_goals try (subst h; rfl)
  · have back := hex_back b.toNat (UInt8.lt_iff_toNat_lt.mp h)
    rw [UInt8.ofNat_toNat] at back
    exact congrArg (fun c => some (c, rest)) back
  · simp [unescape, *]

theorem escape_cut {b c : UInt8} {s t : Bytes} (h : escape b ++ s = escape c ++ t) : b = c ∧ s = t := by
  have left := unescape_escape b s
  rw [h, unescape_escape] at left
  simpa using left.symm

theorem escape_opens (b : UInt8) : Opens escape 0x22 b := by
  unfold Opens escape
  split_ifs with h
  all_goals first
    | exact ⟨0x5c, _, rfl, by decide⟩
    | exact ⟨b, [], rfl, h⟩

theorem quoted_cut {x y s t : Bytes}
    (h : x.flatMap escape ++ 0x22 :: s = y.flatMap escape ++ 0x22 :: t) : x = y ∧ s = t := by
  induction x generalizing y with
  | nil =>
    cases y with
    | nil => exact ⟨rfl, List.tail_eq_of_cons_eq h⟩
    | cons c y =>
      obtain ⟨b, rest, begins, other⟩ := escape_opens c
      rw [List.flatMap_cons, begins] at h
      exact absurd (List.cons.inj h).1.symm other
  | cons c x ih =>
    cases y with
    | nil =>
      obtain ⟨b, rest, begins, other⟩ := escape_opens c
      rw [List.flatMap_cons, begins] at h
      exact absurd (List.cons.inj h).1 other
    | cons d y =>
      simp only [List.flatMap_cons, List.append_assoc] at h
      obtain ⟨rfl, rest⟩ := escape_cut h
      obtain ⟨rfl, back⟩ := ih rest
      exact ⟨rfl, back⟩

theorem quote_cut {x y s t : Bytes} (h : quote x ++ s = quote y ++ t) : x = y ∧ s = t := by
  simp only [quote, List.cons_append, List.append_assoc, List.nil_append] at h
  exact quoted_cut (List.tail_eq_of_cons_eq h)

theorem canonicalItems_eq (items : List (Term F)) :
    canonicalItems floats items = items.map (canonicalJson floats) := by
  induction items with
  | nil => rfl
  | cons t rest ih => rw [canonicalItems, ih, List.map_cons]

theorem canonicalFields_eq (fields : List (Bytes × Term F)) :
    canonicalFields floats fields = fields.map fun f => (f.1, canonicalJson floats f.2) := by
  induction fields with
  | nil => rfl
  | cons f rest ih => rw [canonicalFields, ih, List.map_cons]

def fieldText (f : Bytes × Term F) : Bytes := entry (f.1, canonicalJson floats f.2)

theorem canonicalJson_map (fields : List (Bytes × Term F)) : canonicalJson floats (.map fields) =
    0x7b :: (separated 0x2c ((sortByKey fields).map (fieldText floats)) ++ [0x7d]) := by
  have sorted : sortByKey (canonicalFields floats fields) =
      (sortByKey fields).map fun f => (f.1, canonicalJson floats f.2) := by
    rw [canonicalFields_eq]
    exact (List.map_insertionSort keyLe keyLe (fun f => (f.1, canonicalJson floats f.2)) fields
      fun _ _ _ _ => Iff.rfl).symm
  rw [canonicalJson, sorted, List.map_map]
  rfl

theorem canonicalJson_list (items : List (Term F)) : canonicalJson floats (.list items) =
    0x5b :: (separated 0x2c (items.map (canonicalJson floats)) ++ [0x5d]) := by
  rw [canonicalJson, canonicalItems_eq]

inductive Kind where
  | literal
  | str
  | list
  | map

def Term.kind : Term F → Kind
  | .literal _ => .literal
  | .str _ => .str
  | .list _ => .list
  | .map _ => .map

def kindOf (b : UInt8) : Kind :=
  if b = 0x22 then .str else if b = 0x5b then .list else if b = 0x7b then .map else .literal

theorem kindOf_plain {b : UInt8} (plain : b ∉ marks) : kindOf b = .literal := by
  unfold kindOf
  split_ifs with h h h
  all_goals first
    | rfl
    | exact absurd (by rw [h]; decide) plain

theorem canonicalJson_leads (t : Term F) :
    ∃ b rest, canonicalJson floats t = b :: rest ∧ b ≠ 0x5d ∧ kindOf b = t.kind := by
  cases t with
  | literal l =>
    obtain ⟨b, rest, text⟩ := List.exists_cons_of_ne_nil (literal_ne_nil floats l)
    have plain : b ∉ marks := literal_plain floats l b (by rw [text]; exact List.mem_cons_self)
    have other : b ≠ 0x5d := fun same => plain (by rw [same]; decide)
    exact ⟨b, rest, by rw [canonicalJson, text], other, kindOf_plain plain⟩
  | str s => exact ⟨0x22, _, by rw [canonicalJson, quote], by decide, rfl⟩
  | list items => exact ⟨0x5b, _, canonicalJson_list floats items, by decide, rfl⟩
  | map fields => exact ⟨0x7b, _, canonicalJson_map floats fields, by decide, rfl⟩

theorem kinds_alike {t u : Term F} {s s' : Bytes}
    (h : canonicalJson floats t ++ s = canonicalJson floats u ++ s') : t.kind = u.kind := by
  obtain ⟨b, rest, text, _, kind⟩ := canonicalJson_leads floats t
  obtain ⟨c, rest', text', _, kind'⟩ := canonicalJson_leads floats u
  rw [text, text', List.cons_append, List.cons_append, List.cons.injEq] at h
  rw [← kind, ← kind', h.1]

theorem canonicalJson_opens (t : Term F) : Opens (canonicalJson floats) 0x5d t := by
  obtain ⟨b, rest, text, other, _⟩ := canonicalJson_leads floats t
  exact ⟨b, rest, text, other⟩

theorem fieldText_opens (f : Bytes × Term F) : Opens (fieldText floats) 0x7d f := by
  refine ⟨0x22, f.1.flatMap escape ++ [0x22] ++ 0x3a :: canonicalJson floats f.2, ?_, by decide⟩
  rw [fieldText, entry, quote, List.cons_append]

theorem Term.members {P : Term F → Prop} (literal : ∀ l, P (.literal l)) (str : ∀ s, P (.str s))
    (list : ∀ items, (∀ t ∈ items, P t) → P (.list items))
    (map : ∀ fields, (∀ f ∈ fields, P f.2) → P (.map fields)) : ∀ t, P t
  | .literal l => literal l
  | .str s => str s
  | .list items => list items fun t mem =>
      have _smaller := List.sizeOf_lt_of_mem mem
      Term.members literal str list map t
  | .map fields => map fields fun f mem =>
      have _smaller := List.sizeOf_lt_of_mem mem
      Term.members literal str list map f.2
termination_by t => sizeOf t
decreasing_by
  · simp only [Term.list.sizeOf_spec]
    omega
  · obtain ⟨k, t⟩ := f
    simp only [Term.map.sizeOf_spec, Prod.mk.sizeOf_spec] at _smaller ⊢
    omega

theorem sameItems_of_forall₂ {xs ys : List (Term F)} (h : List.Forall₂ Same xs ys) :
    SameItems xs ys := by
  induction h with
  | nil => exact .nil
  | cons here _ ih => exact .item here ih

theorem sameFields_of_forall₂ {xs ys : List (Bytes × Term F)}
    (h : List.Forall₂ (fun f g => f.1 = g.1 ∧ Same f.2 g.2) xs ys) : SameFields xs ys := by
  induction h with
  | nil => exact .done
  | cons here _ ih =>
    rename_i f g xs ys _
    obtain ⟨k, x⟩ := f
    obtain ⟨k', y⟩ := g
    obtain ⟨rfl, same⟩ := here
    exact .field same ih

theorem canonicalJson_cuts (t : Term F) : Cuts (canonicalJson floats) Same (· ∈ marks) t := by
  induction t using Term.members with
  | literal l =>
    intro u s s' endsLeft endsRight h
    have alike := kinds_alike floats h
    cases u with
    | literal l' =>
      rw [canonicalJson, canonicalJson] at h
      obtain ⟨same, rest⟩ := plain_cut (literal_plain floats l) (literal_plain floats l')
        (ends_mono (fun b => not_not_intro) endsLeft) (ends_mono (fun b => not_not_intro) endsRight) h
      rw [literal_injective floats same]
      exact ⟨.literal l', rest⟩
    | str y => cases alike
    | list ys => cases alike
    | map ys => cases alike
  | str x =>
    intro u s s' endsLeft endsRight h
    have alike := kinds_alike floats h
    cases u with
    | literal l' => cases alike
    | str y =>
      rw [canonicalJson, canonicalJson] at h
      obtain ⟨rfl, rest⟩ := quote_cut h
      exact ⟨.str x, rest⟩
    | list ys => cases alike
    | map ys => cases alike
  | list xs ih =>
    intro u s s' endsLeft endsRight h
    have alike := kinds_alike floats h
    cases u with
    | literal l' => cases alike
    | str y => cases alike
    | list ys =>
      simp only [canonicalJson_list, List.cons_append, List.append_assoc, List.nil_append] at h
      obtain ⟨same, rest⟩ := separated_cut (by decide) (by decide) (by decide)
        (canonicalJson_opens floats) ih (List.tail_eq_of_cons_eq h)
      exact ⟨.list (sameItems_of_forall₂ same), rest⟩
    | map ys => cases alike
  | map xs ih =>
    intro u s s' endsLeft endsRight h
    have alike := kinds_alike floats h
    cases u with
    | literal l' => cases alike
    | str y => cases alike
    | list ys => cases alike
    | map ys =>
      simp only [canonicalJson_map, List.cons_append, List.append_assoc, List.nil_append] at h
      have cuts : ∀ f ∈ sortByKey xs, Cuts (fieldText floats)
          (fun f g => f.1 = g.1 ∧ Same f.2 g.2) (· ∈ marks) f := by
        intro f mem g r r' endsLeft endsRight h
        simp only [fieldText, entry, List.append_assoc, List.cons_append] at h
        obtain ⟨key, rest⟩ := quote_cut h
        obtain ⟨value, back⟩ := ih f ((List.mem_insertionSort keyLe).mp mem) g.2 r r' endsLeft
          endsRight (List.tail_eq_of_cons_eq rest)
        exact ⟨⟨key, value⟩, back⟩
      obtain ⟨same, rest⟩ := separated_cut (by decide) (by decide) (by decide)
        (fieldText_opens floats) cuts (List.tail_eq_of_cons_eq h)
      exact ⟨.map (List.perm_insertionSort keyLe xs).symm (sameFields_of_forall₂ same)
        (List.perm_insertionSort keyLe ys), rest⟩

theorem sort_of_perm {V : Type} {xs ys : List (Bytes × V)} (perm : xs.Perm ys)
    (distinct : (xs.map Prod.fst).Nodup) : sortByKey xs = sortByKey ys := by
  have total : Std.Total (@keyLe V) := ⟨fun f g => le_total (f.1.map UInt8.toNat) (g.1.map UInt8.toNat)⟩
  have trans : IsTrans _ (@keyLe V) := ⟨fun _ _ _ first second => le_trans first second⟩
  have sorted : ∀ zs : List (Bytes × V), (sortByKey zs).Pairwise keyLe :=
    fun zs => List.pairwise_insertionSort keyLe zs
  have left := List.perm_insertionSort keyLe xs
  have right := List.perm_insertionSort keyLe ys
  apply List.Perm.eq_of_pairwise _ (sorted xs) (sorted ys) (left.trans (perm.trans right.symm))
  intro f g mf mg below above
  have key : f.1 = g.1 :=
    List.map_injective_iff.mpr (fun b c => UInt8.toNat_inj.mp) (le_antisymm below above)
  exact List.inj_on_of_nodup_map distinct (left.mem_iff.mp mf)
    (perm.mem_iff.mpr (right.mem_iff.mp mg)) key

theorem properItems_iff {items : List (Term F)} : ProperItems items ↔ ∀ t ∈ items, t.Proper := by
  induction items with
  | nil => simp [ProperItems]
  | cons t rest ih => rw [ProperItems, ih, List.forall_mem_cons]

theorem properFields_iff {fields : List (Bytes × Term F)} :
    ProperFields fields ↔ ∀ f ∈ fields, f.2.Proper := by
  induction fields with
  | nil => simp [ProperFields]
  | cons f rest ih => rw [ProperFields, ih, List.forall_mem_cons]

theorem canonicalFields_keys (fields : List (Bytes × Term F)) :
    (canonicalFields floats fields).map Prod.fst = fields.map Prod.fst := by
  rw [canonicalFields_eq, List.map_map]
  rfl

mutual
theorem canonicalJson_same : ∀ {t u : Term F}, Same t u → t.Proper →
    canonicalJson floats t = canonicalJson floats u
  | _, _, .literal _, _ => rfl
  | _, _, .str _, _ => rfl
  | _, _, .list items, proper => by
    rw [canonicalJson, canonicalJson, canonicalItems_same items proper]
  | _, _, @Same.map _ xs xs' _ ys before fields after, proper => by
    have inner : ProperFields xs' :=
      properFields_iff.mpr fun f mem => properFields_iff.mp proper.2 f (before.mem_iff.mpr mem)
    have perm : (canonicalFields floats xs).Perm (canonicalFields floats ys) := by
      have texts := canonicalFields_same fields inner
      simp only [canonicalFields_eq] at texts ⊢
      exact (before.map _).trans (texts ▸ after.map _)
    rw [canonicalJson, canonicalJson, sort_of_perm perm (by rw [canonicalFields_keys]; exact proper.1)]

theorem canonicalItems_same : ∀ {xs ys : List (Term F)}, SameItems xs ys → ProperItems xs →
    canonicalItems floats xs = canonicalItems floats ys
  | _, _, .nil, _ => rfl
  | _, _, .item here rest, proper => by
    rw [canonicalItems, canonicalItems, canonicalJson_same here proper.1,
      canonicalItems_same rest proper.2]

theorem canonicalFields_same : ∀ {xs ys : List (Bytes × Term F)}, SameFields xs ys → ProperFields xs →
    canonicalFields floats xs = canonicalFields floats ys
  | _, _, .done, _ => rfl
  | _, _, .field here rest, proper => by
    rw [canonicalFields, canonicalFields, canonicalJson_same here proper.1,
      canonicalFields_same rest proper.2]
end

def semanticsVersion : Nat := 1

def protocolVersion : Nat := 1

structure Graph (F : Type) where
  version : Nat
  inputs : List (Term F)
  constants : List (Term F)
  nodes : List (Term F)
  outputs : List (Term F)
  blobs : List Bytes
  proper : ∀ t ∈ inputs ++ constants ++ nodes ++ outputs, t.Proper

def Graph.toWire (g : Graph F) : Term F :=
  .map [(ascii "version", .literal (.int g.version)), (ascii "inputs", .list g.inputs),
    (ascii "constants", .list g.constants), (ascii "nodes", .list g.nodes),
    (ascii "outputs", .list g.outputs)]

inductive Opt (W : Type) where
  | tinygradCommit (version : Bytes)
  | device (name : Bytes)
  | worker (server : W)

def Opt.OneLine {W : Type} : Opt W → Prop
  | .tinygradCommit version => 0x0a ∉ version
  | .device name => 0x0a ∉ name
  | .worker _ => True

def Opt.tinygradCommit? {W : Type} : Opt W → Option Bytes
  | .tinygradCommit version => some version
  | _ => none

def Opt.device? {W : Type} : Opt W → Option Bytes
  | .device name => some name
  | _ => none

def Opt.worker? {W : Type} : Opt W → Option W
  | .worker server => some server
  | _ => none

def get {W V : Type} (opts : List (Opt W)) (read : Opt W → Option V) (default : V) : V :=
  (opts.findSome? read).getD default

/-- What `compute` calls: `:crypto.hash(:sha256, _)`, `:erlang.term_to_binary`, the worker `:default`
    and `inspect` of a keyword list of devices. -/
structure Runtime (W : Type) where
  sha256 : Bytes → Bytes
  termToBinary : W → Bytes
  defaultWorker : W
  inspect : List Bytes → Bytes

variable {W : Type} (runtime : Runtime W)

def blobFingerprint (blob : Bytes) : Bytes :=
  ascii ":" ++ (decimal blob.length ++ (ascii ":" ++ runtime.sha256 blob))

def blobFingerprints (blobs : List Bytes) : Bytes :=
  decimal blobs.length ++ blobs.flatMap (blobFingerprint runtime)

def canonicalCompileOpts (opts : List (Opt W)) : Bytes :=
  runtime.inspect ((opts.filterMap Opt.device?).insertionSort
    fun a b => a.map UInt8.toNat ≤ b.map UInt8.toNat)

/-- The byte string that is hashed; `nx` is the version of the application `:nx`. -/
def parts (nx : Bytes) (g : Graph F) (opts : List (Opt W)) : List Bytes :=
  [ascii "gsv:", decimal semanticsVersion,
   ascii "\ngraph:", canonicalJson floats g.toWire,
   ascii "\nblobs:", blobFingerprints runtime g.blobs,
   ascii "\nnx:", nx,
   ascii "\ntg:", get opts Opt.tinygradCommit? (ascii "unknown"),
   ascii "\npv:", decimal protocolVersion,
   ascii "\ndev:", get opts Opt.device? (ascii "CPU"),
   ascii "\nworker:", runtime.termToBinary (get opts Opt.worker? runtime.defaultWorker),
   ascii "\ncc:", canonicalCompileOpts runtime opts]

def lowerHex (n : Nat) : UInt8 := UInt8.ofNat (if n < 10 then 48 + n else 87 + n)

def encode16 (bytes : Bytes) : Bytes :=
  bytes.flatMap fun b => [lowerHex (b.toNat / 16), lowerHex (b.toNat % 16)]

def compute (nx : Bytes) (g : Graph F) (opts : List (Opt W)) : Bytes :=
  encode16 (runtime.sha256 (parts floats runtime nx g opts).flatten)

theorem toWire_proper (g : Graph F) : g.toWire.Proper := by
  have proper := g.proper
  simp only [List.forall_mem_append] at proper
  obtain ⟨⟨⟨inputs, constants⟩, nodes⟩, outputs⟩ := proper
  have keys : [ascii "version", ascii "inputs", ascii "constants", ascii "nodes",
      ascii "outputs"].Nodup := by
    decide
  refine ⟨keys, ?_⟩
  simp only [ProperFields, Term.Proper, properItems_iff]
  exact ⟨trivial, inputs, constants, nodes, outputs, trivial⟩

theorem lowerHex_injective : ∀ m < 16, ∀ n < 16, lowerHex m = lowerHex n → m = n := by decide

theorem encode16_cut (b c : UInt8) (s t : Bytes)
    (h : [lowerHex (b.toNat / 16), lowerHex (b.toNat % 16)] ++ s =
      [lowerHex (c.toNat / 16), lowerHex (c.toNat % 16)] ++ t) : b = c ∧ s = t := by
  have := b.toNat_lt
  have := c.toNat_lt
  simp only [List.cons_append, List.nil_append, List.cons.injEq] at h
  obtain ⟨high, low, rest⟩ := h
  have high := lowerHex_injective _ (by omega) _ (by omega) high
  have low := lowerHex_injective _ (by omega) _ (by omega) low
  exact ⟨UInt8.toNat_inj.mp (by omega), rest⟩

theorem encode16_injective {xs ys : Bytes} (len : xs.length = ys.length)
    (h : encode16 xs = encode16 ys) : xs = ys := by
  have cut := sequence_cut len (fun b _ c _ => encode16_cut b c) (congrArg (· ++ []) h)
  exact cut.1

theorem decimal_cut {m n : Nat} {s t : Bytes} (endsLeft : Ends (· ∈ marks) s)
    (endsRight : Ends (· ∈ marks) t) (h : decimal m ++ s = decimal n ++ t) : m = n ∧ s = t := by
  have plain : ∀ k, ∀ b ∈ decimal k, b ∉ marks := fun k b mem =>
    (by decide : ∀ b ∈ ascii "0123456789", b ∉ marks) b (decimal_chars mem)
  obtain ⟨same, rest⟩ := plain_cut (plain m) (plain n)
    (ends_mono (fun b => not_not_intro) endsLeft) (ends_mono (fun b => not_not_intro) endsRight) h
  exact ⟨decimal_injective same, rest⟩

variable {runtime}

theorem blobFingerprint_cut (digests : ∀ b, (runtime.sha256 b).length = 32) {x y : Bytes}
    (apart : runtime.sha256 x = runtime.sha256 y → x = y) {s t : Bytes}
    (h : blobFingerprint runtime x ++ s = blobFingerprint runtime y ++ t) : x = y ∧ s = t := by
  simp only [blobFingerprint, List.append_assoc] at h
  have colon : ∀ r, Ends (· ∈ marks) (ascii ":" ++ r) := fun _ => (by decide : (0x3a : UInt8) ∈ marks)
  obtain ⟨_, rest⟩ := decimal_cut (colon _) (colon _) (List.append_cancel_left h)
  obtain ⟨same, back⟩ := List.append_inj (List.append_cancel_left rest) (by rw [digests, digests])
  exact ⟨apart same, back⟩

theorem blobFingerprints_cut (digests : ∀ b, (runtime.sha256 b).length = 32) {xs ys : List Bytes}
    (apart : ∀ x ∈ xs, ∀ y ∈ ys, runtime.sha256 x = runtime.sha256 y → x = y) {s t : Bytes}
    (endsLeft : Ends (· ∈ marks) s) (endsRight : Ends (· ∈ marks) t)
    (h : blobFingerprints runtime xs ++ s = blobFingerprints runtime ys ++ t) : xs = ys ∧ s = t := by
  have ends : ∀ (blobs : List Bytes) {r : Bytes}, Ends (· ∈ marks) r →
      Ends (· ∈ marks) (blobs.flatMap (blobFingerprint runtime) ++ r) := by
    intro blobs r after
    cases blobs with
    | nil => exact after
    | cons b rest => exact (by decide : (0x3a : UInt8) ∈ marks)
  simp only [blobFingerprints, List.append_assoc] at h
  obtain ⟨len, rest⟩ := decimal_cut (ends xs endsLeft) (ends ys endsRight) h
  exact sequence_cut len (fun x mx y my s t => blobFingerprint_cut digests (apart x mx y my)) rest

theorem commit_line {opts : List (Opt W)} (lines : ∀ o ∈ opts, o.OneLine) :
    0x0a ∉ get opts Opt.tinygradCommit? (ascii "unknown") := by
  unfold get
  cases found : opts.findSome? Opt.tinygradCommit? with
  | none => decide
  | some v =>
    obtain ⟨o, mem, read⟩ := List.exists_of_findSome?_eq_some found
    cases o with
    | tinygradCommit version =>
      cases read
      exact lines _ mem
    | device name => cases read
    | worker server => cases read

theorem device_line {opts : List (Opt W)} (lines : ∀ o ∈ opts, o.OneLine) :
    0x0a ∉ get opts Opt.device? (ascii "CPU") := by
  unfold get
  cases found : opts.findSome? Opt.device? with
  | none => decide
  | some v =>
    obtain ⟨o, mem, read⟩ := List.exists_of_findSome?_eq_some found
    cases o with
    | tinygradCommit version => cases read
    | device name =>
      cases read
      exact lines _ mem
    | worker server => cases read

theorem parts_cut {nx nx' : Bytes} {g g' : Graph F} {opts opts' : List (Opt W)}
    (digests : ∀ b, (runtime.sha256 b).length = 32)
    (apart : ∀ x ∈ g.blobs, ∀ y ∈ g'.blobs, runtime.sha256 x = runtime.sha256 y → x = y)
    (readable : ∀ v w s t, runtime.termToBinary v ++ s = runtime.termToBinary w ++ t → v = w)
    (nxLine : 0x0a ∉ nx) (nxLine' : 0x0a ∉ nx')
    (lines : ∀ o ∈ opts, o.OneLine) (lines' : ∀ o ∈ opts', o.OneLine)
    (h : (parts floats runtime nx g opts).flatten = (parts floats runtime nx' g' opts').flatten) :
    Same g.toWire g'.toWire ∧ g.blobs = g'.blobs ∧
      get opts Opt.worker? runtime.defaultWorker = get opts' Opt.worker? runtime.defaultWorker := by
  have newline : ∀ r, Ends (· ∈ marks) (0x0a :: r) := fun _ => (by decide : (0x0a : UInt8) ∈ marks)
  have blobsLabel : ascii "\nblobs:" = 0x0a :: ascii "blobs:" := by decide
  have nxLabel : ascii "\nnx:" = 0x0a :: ascii "nx:" := by decide
  have tgLabel : ascii "\ntg:" = 0x0a :: ascii "tg:" := by decide
  have pvLabel : ascii "\npv:" = 0x0a :: ascii "pv:" := by decide
  have workerLabel : ascii "\nworker:" = 0x0a :: ascii "worker:" := by decide
  simp only [parts, List.flatten_cons, blobsLabel, nxLabel, tgLabel, pvLabel, workerLabel,
    List.cons_append] at h
  have h := List.append_cancel_left (List.append_cancel_left (List.append_cancel_left h))
  obtain ⟨wire, h⟩ := canonicalJson_cuts floats g.toWire _ _ _ (newline _) (newline _) h
  have h := List.append_cancel_left (List.tail_eq_of_cons_eq h)
  obtain ⟨blobs, h⟩ := blobFingerprints_cut digests apart (newline _) (newline _) h
  have h := List.append_cancel_left (List.tail_eq_of_cons_eq h)
  obtain ⟨_, h⟩ := marked_cut nxLine nxLine' h
  obtain ⟨_, h⟩ := marked_cut (commit_line lines) (commit_line lines') (List.append_cancel_left h)
  have h := List.append_cancel_left (List.append_cancel_left (List.append_cancel_left h))
  obtain ⟨_, h⟩ := marked_cut (device_line lines) (device_line lines') h
  have worker := readable _ _ _ _ (List.append_cancel_left h)
  exact ⟨wire, blobs, worker⟩

/-- Equal keys are the keys of equal requests, and the order of a map does not change a key. -/
theorem keys_sound {nx nx' : Bytes} {g g' : Graph F} {opts opts' : List (Opt W)}
    (digests : ∀ b, (runtime.sha256 b).length = 32)
    (apart : ∀ x ∈ g.blobs, ∀ y ∈ g'.blobs, runtime.sha256 x = runtime.sha256 y → x = y)
    (outer : runtime.sha256 (parts floats runtime nx g opts).flatten =
        runtime.sha256 (parts floats runtime nx' g' opts').flatten →
      (parts floats runtime nx g opts).flatten = (parts floats runtime nx' g' opts').flatten)
    (readable : ∀ v w s t, runtime.termToBinary v ++ s = runtime.termToBinary w ++ t → v = w)
    (nxLine : 0x0a ∉ nx) (nxLine' : 0x0a ∉ nx')
    (lines : ∀ o ∈ opts, o.OneLine) (lines' : ∀ o ∈ opts', o.OneLine) :
    (compute floats runtime nx g opts = compute floats runtime nx' g' opts' →
      Same g.toWire g'.toWire ∧ g.blobs = g'.blobs ∧
        get opts Opt.worker? runtime.defaultWorker = get opts' Opt.worker? runtime.defaultWorker) ∧
    (Same g.toWire g'.toWire → g.blobs = g'.blobs →
      compute floats runtime nx g opts = compute floats runtime nx g' opts) := by
  constructor
  · intro h
    have hashes := encode16_injective (by rw [digests, digests]) h
    exact parts_cut floats digests apart readable nxLine nxLine' lines lines' (outer hashes)
  · intro same blobs
    have json := canonicalJson_same floats same (toWire_proper g)
    simp only [compute, parts, json, blobs]

/-! Two ways to write one graph: the constant 0.5, its fields in another order, and an inline 1.0. -/

def halfText : FloatText Unit where
  text := fun _ => ascii "0.5"
  injective := fun _ _ _ => rfl
  chars := fun _ => by decide +kernel
  point := fun _ => by decide

def halfField : Bytes × Term Unit := (ascii "value", .literal (.float ()))

def idField (n : Int) : Bytes × Term Unit := (ascii "id", .literal (.int n))

def inline : Term Unit := .map [idField 1, (ascii "data_index", .literal (.int 0))]

def half : Graph Unit where
  version := 1
  inputs := []
  constants := [.map [idField 0, halfField], inline]
  nodes := []
  outputs := []
  blobs := [[0, 0, 128, 63]]
  proper := by
    simp [Term.Proper, ProperFields, inline, idField, halfField]
    decide

def halfReordered : Graph Unit where
  version := 1
  inputs := []
  constants := [.map [halfField, idField 0], inline]
  nodes := []
  outputs := []
  blobs := [[0, 0, 128, 63]]
  proper := by
    simp [Term.Proper, ProperFields, inline, idField, halfField]
    decide

abbrev AtomName := {name : Bytes // name.length < 256}

def blobDigest : Bytes :=
  BigEndian.toBytes 32 0xe00e5eb9444182f352323374ef4e08ebcb784725fdd4fd612d7730540b3e0c8c

def keyDigest : Bytes :=
  BigEndian.toBytes 32 0xc65b565abc7052b6b81df92dd8ea7496a16326248a35812ab7181da82735e9c0

/-- Atoms as workers; the digests are those of the blob and of the byte string below. -/
def atomRuntime : Runtime AtomName where
  sha256 := fun b => if b = [0, 0, 128, 63] then blobDigest else keyDigest
  termToBinary := fun w => 131 :: 119 :: UInt8.ofNat w.1.length :: w.1
  defaultWorker := ⟨ascii "default", by decide⟩
  inspect := fun devices =>
    ascii "[" ++ ((devices.map fun d => ascii "device: " ++ quote d).intersperse
      (ascii ", ")).flatten ++ ascii "]"

theorem atom_readable (v w : AtomName) (s t : Bytes)
    (h : atomRuntime.termToBinary v ++ s = atomRuntime.termToBinary w ++ t) : v = w := by
  obtain ⟨x, small⟩ := v
  obtain ⟨y, small'⟩ := w
  simp only [atomRuntime, List.cons_append, List.cons.injEq, true_and] at h
  obtain ⟨size, rest⟩ := h
  have len := congrArg UInt8.toNat size
  simp only [UInt8.toNat_ofNat'] at len
  have same := (List.append_inj rest (by omega)).1
  exact Subtype.ext same

def cpuOpts : List (Opt AtomName) :=
  [.device (ascii "CPU"), .tinygradCommit (ascii "0.10.3"), .worker ⟨ascii "default", by decide⟩]

theorem cpuOpts_lines : ∀ o ∈ cpuOpts, o.OneLine := by
  simp only [cpuOpts, List.forall_mem_cons, Opt.OneLine]
  exact ⟨by decide, by decide, trivial, by simp⟩

theorem half_same : Same half.toWire halfReordered.toWire := by
  have constants : SameItems half.constants halfReordered.constants := by
    apply SameItems.item (.map (List.Perm.swap _ _ []) _ (List.Perm.refl _))
    · exact .item (.map (List.Perm.refl _) (.field (.literal _) (.field (.literal _) .done))
        (List.Perm.refl _)) .nil
    · exact .field (.literal _) (.field (.literal _) .done)
  apply Same.map (List.Perm.refl _) _ (List.Perm.refl _)
  exact .field (.literal _) (.field (.list .nil) (.field (.list constants)
    (.field (.list .nil) (.field (.list .nil) .done))))

theorem half_key : compute halfText atomRuntime (ascii "0.9.2") half cpuOpts =
      compute halfText atomRuntime (ascii "0.9.2") halfReordered cpuOpts ∧
    Same half.toWire halfReordered.toWire ∧ half.blobs = halfReordered.blobs := by
  have sound := @keys_sound Unit halfText AtomName atomRuntime (ascii "0.9.2") (ascii "0.9.2") half
    halfReordered cpuOpts cpuOpts
    (by intro b; simp only [atomRuntime]; split <;> simp [blobDigest, keyDigest])
    (by intro x mx y my _; rw [List.mem_singleton.mp mx, List.mem_singleton.mp my])
    (fun _ => by decide +kernel) atom_readable (by decide) (by decide)
    cpuOpts_lines cpuOpts_lines
  have key := sound.2 half_same rfl
  have request := sound.1 key
  exact ⟨key, request.1, request.2.1⟩

end NxTinygrad.CacheKey
