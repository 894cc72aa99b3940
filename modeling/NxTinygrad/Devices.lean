import NxTinygrad.Lib.Splitting

/- The device strings `[<IFACE>+]<BACKEND>[:<RENDERER>]` as device.ex and device.py parse them. Texts
   are ASCII. -/
namespace NxTinygrad.Devices
open Splitting

abbrev Text := List Char

structure Device where
  spec : Text
  backend : Text
  interface : Option Text
  renderer : Option Text
  tinygradDevice : Text
  dev : Text
  env : List (Text × Text)
  deriving DecidableEq, Repr

def upperChar (c : Char) : Char := if 97 ≤ c.toNat ∧ c.toNat ≤ 122 then Char.ofNat (c.toNat - 32) else c

def upcase (t : Text) : Text := t.map upperChar

def cpu : Text := ['C', 'P', 'U']
def amd : Text := ['A', 'M', 'D']
def kfd : Text := ['K', 'F', 'D']
def llvm : Text := ['L', 'L', 'V', 'M']

/-! device.ex: an empty string is as good as any other. -/
namespace Elixir

/-- What `String.trim` removes: tab to carriage return, and the space. -/
def blank (c : Char) : Bool := (9 ≤ c.toNat && c.toNat ≤ 13) || c.toNat = 32

def normalize : Option Text → Text
  | none => cpu
  | some spec => match trim blank spec with
    | [] => cpu
    | other => other

def configure (backend : Text) (iface renderer : Option Text) : Option Text × Option Text × Text :=
  if backend = amd then
    let interface := iface.getD kfd
    let renderer := renderer.getD llvm
    (some interface, some renderer, interface ++ '+' :: (amd ++ ':' :: renderer))
  else
    (iface, renderer, (iface.map (· ++ ['+'])).getD [] ++
      (backend ++ (renderer.map (':' :: ·)).getD []))

def parse (spec : Option Text) : Device :=
  let spec := normalize spec
  let (iface, rest) := match splitOnce '+' spec with
    | some (iface, rest) => (some (upcase iface), rest)
    | none => (none, spec)
  let (backend, renderer) := match splitOnce ':' rest with
    | some (backend, renderer) => (upcase backend, some (upcase renderer))
    | none => (upcase rest, none)
  let (interface, renderer, dev) := configure backend iface renderer
  ⟨spec, backend, interface, renderer, backend, dev, []⟩

end Elixir

namespace Python

/-- What `str.strip` removes: also the separators FS, GS, RS and US. -/
def blank (c : Char) : Bool :=
  (9 ≤ c.toNat && c.toNat ≤ 13) || (28 ≤ c.toNat && c.toNat ≤ 31) || c.toNat = 32

def orElse (x y : Text) : Text := if x = [] then y else x

def upperOrNone : Option Text → Option Text
  | some (c :: t) => some (upcase (c :: t))
  | _ => none

def parseDevice (spec : Option Text) : Device :=
  let spec := orElse (trim blank (spec.getD [])) cpu
  let (iface, rest) := match splitOnce '+' spec with
    | some (iface, rest) => (some iface, rest)
    | none => (none, spec)
  let (backend, renderer) := match splitOnce ':' rest with
    | some (backend, renderer) => (backend, some renderer)
    | none => (rest, none)
  let backend := upcase backend
  let iface := upperOrNone iface
  let renderer := upperOrNone renderer
  if backend = amd then
    let iface := iface.getD kfd
    let renderer := renderer.getD llvm
    ⟨spec, backend, some iface, some renderer, backend, iface ++ '+' :: (amd ++ ':' :: renderer), []⟩
  else
    ⟨spec, backend, iface, renderer, backend,
      (iface.map (· ++ ['+'])).getD [] ++ (backend ++ (renderer.map (':' :: ·)).getD []), []⟩

end Python

structure Parts where
  iface : Option Text
  backend : Text
  renderer : Option Text

def parts (spec : Text) : Parts :=
  let front := splitOnce '+' spec
  let rest := (front.map Prod.snd).getD spec
  let back := splitOnce ':' rest
  ⟨front.map Prod.fst, (back.map Prod.fst).getD rest, back.map Prod.snd⟩

def Parts.Filled (p : Parts) : Prop := p.iface ≠ some [] ∧ p.renderer ≠ some []

def Parts.upcase (p : Parts) : Parts :=
  ⟨p.iface.map Devices.upcase, Devices.upcase p.backend, p.renderer.map Devices.upcase⟩

def Parts.device (spec : Text) (p : Parts) : Device :=
  let c := Elixir.configure p.backend p.iface p.renderer
  ⟨spec, p.backend, c.1, c.2.1, p.backend, c.2.2, []⟩

theorem parse_eq (spec : Option Text) :
    Elixir.parse spec = (parts (Elixir.normalize spec)).upcase.device (Elixir.normalize spec) := by
  unfold Elixir.parse
  generalize Elixir.normalize spec = text
  cases first : splitOnce '+' text with
  | none => cases second :
      splitOnce ':' text <;> simp [parts, Parts.upcase, Parts.device, first, second]
  | some p => cases second :
      splitOnce ':' p.2 <;> simp [parts, Parts.upcase, Parts.device, first, second]

def Parts.drop (p : Parts) : Parts := ⟨p.iface.filter (· ≠ []), p.backend, p.renderer.filter (· ≠ [])⟩

theorem upperOrNone_eq (t : Option Text) : Python.upperOrNone t = (t.filter (· ≠ [])).map upcase := by
  rcases t with _ | _ | ⟨c, t⟩ <;> rfl

theorem parseDevice_eq (spec : Option Text) : Python.parseDevice spec =
    (parts (Python.orElse (trim Python.blank (spec.getD [])) cpu)).drop.upcase.device
      (Python.orElse (trim Python.blank (spec.getD [])) cpu) := by
  unfold Python.parseDevice
  generalize Python.orElse (trim Python.blank (spec.getD [])) cpu = text
  cases first : splitOnce '+' text with
  | none =>
    cases second : splitOnce ':' text <;>
      simp [parts, Parts.upcase, Parts.drop, Parts.device, Elixir.configure, upperOrNone_eq,
        first, second] <;>
      split <;> rfl
  | some p =>
    cases second : splitOnce ':' p.2 <;>
      simp [parts, Parts.upcase, Parts.drop, Parts.device, Elixir.configure, upperOrNone_eq,
        first, second] <;>
      split <;> rfl

theorem upperChar_toNat (c : Char) :
    (upperChar c).toNat = if 97 ≤ c.toNat ∧ c.toNat ≤ 122 then c.toNat - 32 else c.toNat := by
  unfold upperChar
  split
  · rename_i lower
    have valid : (c.toNat - 32).isValidChar := Or.inl (by omega)
    rw [Char.ofNat, dif_pos valid]
    rfl
  · rfl

theorem upcase_idem (t : Text) : upcase (upcase t) = upcase t := by
  unfold upcase
  rw [List.map_map]
  refine List.map_congr_left fun c _ => Char.toNat_inj.mp ?_
  rw [Function.comp_apply, upperChar_toNat]
  have once := upperChar_toNat c
  split at once <;> split <;> omega

theorem upperChar_plus (c : Char) : upperChar c = '+' ↔ c = '+' := by
  have code : ('+' : Char).toNat = 43 := rfl
  rw [← Char.toNat_inj, ← Char.toNat_inj, upperChar_toNat, code]
  split <;> omega

theorem upperChar_colon (c : Char) : upperChar c = ':' ↔ c = ':' := by
  have code : (':' : Char).toNat = 58 := rfl
  rw [← Char.toNat_inj, ← Char.toNat_inj, upperChar_toNat, code]
  split <;> omega

theorem blank_upper (c : Char) : Python.blank (upperChar c) = Python.blank c := by
  rw [Bool.eq_iff_iff]
  simp only [Python.blank, Bool.or_eq_true, Bool.and_eq_true, decide_eq_true_eq, upperChar_toNat]
  split <;> omega

theorem blank_le (c : Char) (here : Elixir.blank c = true) : Python.blank c = true := by
  simp only [Elixir.blank, Python.blank, Bool.or_eq_true, Bool.and_eq_true, decide_eq_true_eq] at here ⊢
  omega

theorem parts_upcase (text : Text) : parts (upcase text) = (parts text).upcase := by
  unfold parts
  have front := splitOnce_map upperChar_plus text
  have back := splitOnce_map upperChar_colon
  cases first : splitOnce '+' text with
  | none =>
    rw [first] at front
    cases second : splitOnce ':' text <;> simp [upcase, Parts.upcase, front, back, second]
  | some p =>
    rw [first] at front
    cases second : splitOnce ':' p.2 <;> simp [upcase, Parts.upcase, front, back, second]

def Parts.join (p : Parts) : Text :=
  (p.iface.map (· ++ ['+'])).getD [] ++ (p.backend ++ (p.renderer.map (':' :: ·)).getD [])

theorem parts_join (text : Text) : (parts text).join = text := by
  unfold parts
  cases first : splitOnce '+' text with
  | none =>
    cases second : splitOnce ':' text with
    | none => simp [Parts.join, second]
    | some q =>
      obtain ⟨rest, _⟩ := splitOnce_some.mp second
      simp [Parts.join, second, ← rest]
  | some p =>
    obtain ⟨whole, _⟩ := splitOnce_some.mp first
    cases second : splitOnce ':' p.2 with
    | none => simp [Parts.join, second, ← whole]
    | some q =>
      obtain ⟨rest, _⟩ := splitOnce_some.mp second
      simp [Parts.join, second, ← rest, ← whole]

theorem parts_iface {text iface : Text} (given : (parts text).iface = some iface) :
    '+' ∉ iface ∧ ∃ rest, text = iface ++ '+' :: rest := by
  obtain ⟨p, split, rfl⟩ := Option.map_eq_some_iff.mp given
  obtain ⟨whole, free⟩ := splitOnce_some.mp split
  exact ⟨free, p.2, whole⟩

theorem parts_renderer {text renderer : Text} (given : (parts text).renderer = some renderer) :
    ∃ front, text = front ++ ':' :: renderer := by
  have whole := parts_join text
  rw [Parts.join, given, ← List.append_assoc] at whole
  exact ⟨_, whole.symm⟩

theorem upcase_free {c : Char} {t : Text} (fixed : ∀ x, upperChar x = c ↔ x = c) (free : c ∉ t) :
    c ∉ upcase t := by
  intro mem
  obtain ⟨x, mem, same⟩ := List.mem_map.mp mem
  exact free ((fixed x).mp same ▸ mem)

def SameDevice (d d' : Device) : Prop :=
  d.backend = d'.backend ∧ d.interface = d'.interface ∧ d.renderer = d'.renderer ∧ d.dev = d'.dev

def Complete (d : Device) : Prop :=
  d.backend = amd → ∃ i r, d.interface = some i ∧ d.renderer = some r ∧ i ≠ [] ∧ r ≠ []

structure Agree (spec : Option Text) : Prop where
  same : Elixir.parse spec = Python.parseDevice spec
  again : SameDevice (Elixir.parse (some (Elixir.parse spec).dev)) (Elixir.parse spec)
  again' : SameDevice (Python.parseDevice (some (Python.parseDevice spec).dev))
    (Python.parseDevice spec)
  complete : Complete (Elixir.parse spec)
  complete' : Complete (Python.parseDevice spec)

/-- No separator FS, GS, RS or US at an end, no empty interface and no empty renderer. -/
def Plain : Option Text → Prop
  | none => True
  | some spec => trim Elixir.blank spec = trim Python.blank spec ∧
      (parts (trim Elixir.blank spec)).Filled

theorem normalize_some (spec : Text) :
    Elixir.normalize (some spec) = Python.orElse (trim Elixir.blank spec) cpu := by
  cases cut : trim Elixir.blank spec <;> simp [Elixir.normalize, Python.orElse, cut]

theorem cpu_tight : Tight Python.blank cpu :=
  ⟨fun x head => by cases head; decide, fun x last => by cases last; decide⟩

theorem normalized_tight {t : Text} (tight : Tight Python.blank t) :
    Tight Python.blank (Python.orElse t cpu) := by
  unfold Python.orElse
  split
  · exact cpu_tight
  · exact tight

theorem orElse_ne_nil (t : Text) : Python.orElse t cpu ≠ [] := by
  unfold Python.orElse
  split
  · decide
  · assumption

theorem trim_eq_of_normalized {spec : Text} (same : Python.orElse (trim Elixir.blank spec) cpu =
    Python.orElse (trim Python.blank spec) cpu) : trim Elixir.blank spec = trim Python.blank spec := by
  unfold Python.orElse at same
  split at same
  · rename_i empty
    have all := trim_eq_nil.mp empty
    rw [empty, trim_eq_nil.mpr fun c mem => blank_le c (all c mem)]
  · split at same
    · -- everything is blank for Python, and yet CPU would be left of it
      rename_i empty
      have inside : 'C' ∈ spec := trim_subset (show 'C' ∈ trim Elixir.blank spec by simp [same, cpu])
      exact absurd (trim_eq_nil.mp empty 'C' inside) (by decide)
    · exact same

theorem filled_normalized {t : Text} (filled : (parts t).Filled) :
    (parts (Python.orElse t cpu)).Filled := by
  unfold Python.orElse
  split
  · exact ⟨by decide, by decide⟩
  · exact filled

theorem filled_of_normalized {t : Text} (filled : (parts (Python.orElse t cpu)).Filled) :
    (parts t).Filled := by
  by_cases empty : t = []
  · subst empty
    exact ⟨by decide, by decide⟩
  · rwa [Python.orElse, if_neg empty] at filled

theorem drop_of_filled {p : Parts} (filled : p.Filled) : p.drop = p := by
  obtain ⟨iface, backend, renderer⟩ := p
  obtain ⟨first, last⟩ := filled
  rcases iface with _ | _ | ⟨c, i⟩
  · rcases renderer with _ | _ | ⟨d, r⟩
    · rfl
    · exact absurd rfl last
    · rfl
  · exact absurd rfl first
  · rcases renderer with _ | _ | ⟨d, r⟩
    · rfl
    · exact absurd rfl last
    · rfl

theorem Parts.device_fields (t : Text) (p : Parts) : (p.device t).interface =
    (if p.backend = amd then some (p.iface.getD kfd) else p.iface) ∧
      (p.device t).renderer = if p.backend = amd then some (p.renderer.getD llvm) else p.renderer := by
  unfold Parts.device Elixir.configure
  split <;> exact ⟨rfl, rfl⟩

theorem filled_of_same {p : Parts} {t t' : Text}
    (same : p.upcase.device t = p.drop.upcase.device t') : p.Filled := by
  obtain ⟨interface, renderer⟩ := Parts.device_fields t p.upcase
  obtain ⟨interface', renderer'⟩ := Parts.device_fields t' p.drop.upcase
  rw [same, interface'] at interface
  rw [same, renderer'] at renderer
  have backend : p.drop.upcase.backend = p.upcase.backend := rfl
  rw [backend] at interface renderer
  constructor
  · intro empty
    simp only [Parts.upcase, Parts.drop, empty] at interface
    split at interface
    · exact absurd interface (by decide)
    · exact absurd interface (by decide)
  · intro empty
    simp only [Parts.upcase, Parts.drop, empty] at renderer
    split at renderer
    · exact absurd renderer (by decide)
    · exact absurd renderer (by decide)

theorem parts_amd {i : Text} (r : Text) (free : '+' ∉ i) :
    parts (i ++ '+' :: (amd ++ ':' :: r)) = ⟨some i, amd, some r⟩ := by
  have back : splitOnce ':' (amd ++ ':' :: r) = some (amd, r) := splitOnce_append (by decide)
  simp [parts, splitOnce_append free, back]

theorem interface_of {text : Text} (tight : Tight Python.blank text) (filled : (parts text).Filled) :
    ∃ i, (parts text).upcase.iface.getD kfd = i ∧ i ≠ [] ∧ '+' ∉ i ∧ upcase i = i ∧
      ∀ c, i.head? = some c → Python.blank c = false := by
  cases given : (parts text).iface with
  | none =>
    refine ⟨kfd, by simp [Parts.upcase, given], by decide, by decide, by decide, fun c head => ?_⟩
    cases head
    decide
  | some i =>
    obtain ⟨free, rest, split⟩ := parts_iface given
    have some_text : i ≠ [] := fun empty => filled.1 (empty ▸ given)
    refine ⟨upcase i, by simp [Parts.upcase, given], by simpa [upcase] using some_text,
      upcase_free upperChar_plus free, upcase_idem i, fun c head => ?_⟩
    rw [upcase, List.head?_map] at head
    obtain ⟨d, at_d, rfl⟩ := Option.map_eq_some_iff.mp head
    rw [blank_upper]
    exact tight.first d (by rw [split, List.head?_append, at_d]; rfl)

theorem renderer_of {text : Text} (tight : Tight Python.blank text) (filled : (parts text).Filled) :
    ∃ r, (parts text).upcase.renderer.getD llvm = r ∧ r ≠ [] ∧ upcase r = r ∧
      ∀ c, r.getLast? = some c → Python.blank c = false := by
  cases given : (parts text).renderer with
  | none =>
    refine ⟨llvm, by simp [Parts.upcase, given], by decide, by decide, fun c last => ?_⟩
    cases last
    decide
  | some r =>
    obtain ⟨front, split⟩ := parts_renderer given
    have some_text : r ≠ [] := fun empty => filled.2 (empty ▸ given)
    refine ⟨upcase r, by simp [Parts.upcase, given], by simpa [upcase] using some_text, upcase_idem r,
      fun c last => ?_⟩
    rw [upcase, List.getLast?_map] at last
    obtain ⟨d, at_d, rfl⟩ := Option.map_eq_some_iff.mp last
    rw [blank_upper]
    refine tight.last d ?_
    rw [split, List.getLast?_append_of_ne_nil _ (List.cons_ne_nil _ _),
      List.getLast?_cons_of_ne_nil some_text, at_d]

theorem dev_parts {text : Text} (tight : Tight Python.blank text) (some_text : text ≠ [])
    (filled : (parts text).Filled) : ∃ dev, ((parts text).upcase.device text).dev = dev ∧ dev ≠ [] ∧
      Tight Python.blank dev ∧ (parts dev).Filled ∧
        SameDevice ((parts dev).upcase.device dev) ((parts text).upcase.device text) := by
  obtain ⟨i, first, some_i, free, upper_i, front⟩ := interface_of tight filled
  obtain ⟨r, second, some_r, upper_r, back⟩ := renderer_of tight filled
  by_cases backend : (parts text).upcase.backend = amd
  · have device : (parts text).upcase.device text =
        ⟨text, amd, some i, some r, amd, i ++ '+' :: (amd ++ ':' :: r), []⟩ := by
      simp [Parts.device, Elixir.configure, backend, first, second]
    have split := parts_amd r free
    refine ⟨i ++ '+' :: (amd ++ ':' :: r), by rw [device], by simp,
      ⟨fun c head => ?_, fun c last => ?_⟩, ?_, ?_⟩
    · obtain ⟨d, rest, rfl⟩ := List.exists_cons_of_ne_nil some_i
      exact front c (by simpa using head)
    · refine back c ?_
      rw [List.getLast?_append_of_ne_nil _ (List.cons_ne_nil _ _)] at last
      simpa [amd, List.getLast?_cons_of_ne_nil some_r] using last
    · rw [split]
      exact ⟨by simpa using some_i, by simpa using some_r⟩
    · have upper : upcase amd = amd := by decide
      rw [split, device]
      simp [SameDevice, Parts.upcase, Parts.device, Elixir.configure, upper_i, upper_r, upper]
  · have device : ((parts text).upcase.device text).dev = upcase text := by
      have join : (parts text).upcase.join = upcase text := by rw [← parts_upcase, parts_join]
      simpa [Parts.device, Elixir.configure, backend, Parts.join] using join
    refine ⟨upcase text, device, by simpa [upcase] using some_text, tight.map blank_upper, ?_, ?_⟩
    · rw [parts_upcase]
      refine ⟨fun empty => filled.1 ?_, fun empty => filled.2 ?_⟩
      · obtain ⟨t, given, none_left⟩ := Option.map_eq_some_iff.mp empty
        rw [given, List.map_eq_nil_iff.mp none_left]
      · obtain ⟨t, given, none_left⟩ := Option.map_eq_some_iff.mp empty
        rw [given, List.map_eq_nil_iff.mp none_left]
    · have twice : (parts (upcase text)).upcase = (parts text).upcase := by
        rw [← parts_upcase, upcase_idem, parts_upcase]
      rw [twice]
      exact ⟨rfl, rfl, rfl, rfl⟩

theorem complete_of {text : Text} (tight : Tight Python.blank text) (filled : (parts text).Filled) :
    Complete ((parts text).upcase.device text) := by
  intro backend
  obtain ⟨i, first, some_i, _⟩ := interface_of tight filled
  obtain ⟨r, second, some_r, _⟩ := renderer_of tight filled
  have backend : (parts text).upcase.backend = amd := backend
  obtain ⟨interface, renderer⟩ := Parts.device_fields text (parts text).upcase
  rw [if_pos backend, first] at interface
  rw [if_pos backend, second] at renderer
  exact ⟨i, r, interface, renderer, some_i, some_r⟩

theorem parse_tight {text : Text} (tight : Tight Python.blank text) (some_text : text ≠ [])
    (filled : (parts text).Filled) : Elixir.parse (some text) = (parts text).upcase.device text ∧
      Python.parseDevice (some text) = (parts text).upcase.device text := by
  have cut := trim_of_tight tight
  have cut' := trim_of_tight (tight.weaken blank_le)
  have same : Python.orElse text cpu = text := if_neg some_text
  constructor
  · rw [parse_eq, normalize_some, cut', same]
  · rw [parseDevice_eq, Option.getD_some, cut, same, drop_of_filled filled]

theorem agree_of_tight {spec : Option Text} {text : Text} (tight : Tight Python.blank text)
    (some_text : text ≠ [])
    (filled : (parts text).Filled) (first : Elixir.parse spec = (parts text).upcase.device text)
    (second : Python.parseDevice spec = (parts text).upcase.device text) : Agree spec := by
  obtain ⟨dev, at_dev, some_dev, dev_tight, dev_filled, again⟩ := dev_parts tight some_text filled
  obtain ⟨first', second'⟩ := parse_tight dev_tight some_dev dev_filled
  constructor
  · rw [first, second]
  · rw [first, at_dev, first']
    exact again
  · rw [second, at_dev, second']
    exact again
  · rw [first]
    exact complete_of tight filled
  · rw [second]
    exact complete_of tight filled

/-- The parsers agree, on a text and on the dev string they make of it, just for the plain texts. -/
theorem agree_iff (spec : Option Text) : Agree spec ↔ Plain spec := by
  constructor
  · intro agree
    cases spec with
    | none => trivial
    | some spec =>
      have same := agree.same
      rw [parse_eq, parseDevice_eq, normalize_some, Option.getD_some] at same
      have cut := trim_eq_of_normalized (congrArg Device.spec same)
      rw [← cut] at same
      exact ⟨cut, filled_of_normalized (filled_of_same same)⟩
  · intro plain
    cases spec with
    | none =>
      have first : Elixir.parse none = (parts cpu).upcase.device cpu := by decide
      have second : Python.parseDevice none = (parts cpu).upcase.device cpu := by decide
      exact agree_of_tight cpu_tight (by decide) ⟨by decide, by decide⟩ first second
    | some spec =>
      obtain ⟨cut, filled⟩ := plain
      have filled := filled_normalized filled
      refine agree_of_tight (normalized_tight (cut ▸ tight_trim Python.blank spec))
        (orElse_ne_nil _) filled ?_ ?_
      · rw [parse_eq, normalize_some]
      · rw [parseDevice_eq, Option.getD_some, ← cut, drop_of_filled filled]

/-- `"CPU:"`: an empty renderer for Elixir, none for Python. -/
theorem empty_renderer : ¬ Agree (some (cpu ++ [':'])) :=
  fun agree => absurd agree.same (by decide)

end NxTinygrad.Devices
