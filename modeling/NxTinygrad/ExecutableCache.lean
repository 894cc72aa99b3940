import NxTinygrad.Lib.Runs
import Mathlib.Data.List.AList

/- The executable cache: a public ETS table that one server inserts into, evicting an entry when the
   table is full, while any process reads, deletes and clears. The server's call is a sequence of table
   operations; a step of another process may come between any two of them. -/
namespace NxTinygrad.ExecutableCache
open Runs

abbrev Table (K V : Type) := AList fun _ : K => V

variable {K V : Type}

def Table.size (t : Table K V) : Nat := t.entries.length

inductive Event (K V : Type) where
  | called (key : K) (value : V)
  | evicted (key : K)
  | inserted (key : K) (value : V) (found replaced : Bool) (victim : Option K)
  | deleted (key : K)
  | cleared
  | got (key : K) (answer : Option V)
  deriving DecidableEq, Repr

inductive Server (K V : Type) where
  | idle
  | lookup (key : K) (value : V)
  | size (key : K) (value : V)
  | first (key : K) (value : V)
  | delete (key : K) (value : V) (oldest : K)
  | insert (key : K) (value : V) (found : Bool) (victim : Option K)

structure State (K V : Type) where
  table : Table K V
  mailbox : List (K × V)
  server : Server K V
  log : List (Event K V)

def State.init : State K V := ⟨∅, [], .idle, []⟩

inductive Label (K V : Type) where
  | put (key : K) (value : V)
  | get (key : K)
  | delete (key : K)
  | clear
  | serve (first : Option K)
  deriving DecidableEq, Repr

section operations
variable [DecidableEq K]

def get (t : Table K V) (key : K) : Option V := t.lookup key

/-- `handle_call({:put, key, value}, ..)`, one table operation at a time. `:ets.first` is any key of the
    table, and `none` when there is none. -/
def serve (limit : Nat) (s : State K V) (first : Option K) : Option (State K V) :=
  match s.server with
  | .idle =>
      match s.mailbox with
      | [] => none
      | (key, value) :: rest => some { s with mailbox := rest, server := .lookup key value }
  | .lookup key value =>
      some { s with
        server := if s.table.lookup key = none then .size key value else .insert key value true none }
  | .size key value =>
      some { s with
        server := if limit ≤ s.table.size then .first key value else .insert key value false none }
  | .first key value =>
      match first with
      | none =>
          if s.table.size = 0 then some { s with server := .insert key value false none } else none
      | some oldest =>
          if oldest ∈ s.table then some { s with server := .delete key value oldest } else none
  | .delete key value oldest =>
      some { s with
        table := s.table.erase oldest
        server := .insert key value false (some oldest)
        log := .evicted oldest :: s.log }
  | .insert key value found victim =>
      some { s with
        table := s.table.insert key value
        server := .idle
        log := .inserted key value found (decide (key ∈ s.table)) victim :: s.log }

def step (limit : Nat) (s : State K V) : Label K V → Option (State K V)
  | .put key value =>
      some { s with mailbox := s.mailbox ++ [(key, value)], log := .called key value :: s.log }
  | .get key => some { s with log := .got key (get s.table key) :: s.log }
  | .delete key => some { s with table := s.table.erase key, log := .deleted key :: s.log }
  | .clear => some { s with table := ∅, log := .cleared :: s.log }
  | .serve first => serve limit s first

end operations

def lastPut [DecidableEq K] (key : K) : List (Event K V) → Option V
  | [] => none
  | .inserted k v _ _ _ :: rest => if k = key then some v else lastPut key rest
  | _ :: rest => lastPut key rest

def Removes (key : K) : Event K V → Prop
  | .called _ _ | .got _ _ => False
  | .evicted k | .deleted k | .inserted k _ _ _ _ => k = key
  | .cleared => True

def standing [DecidableEq K] (key : K) : List (Event K V) → Option V
  | [] => none
  | .inserted k v _ _ _ :: rest => if k = key then some v else standing key rest
  | .evicted k :: rest | .deleted k :: rest => if k = key then none else standing key rest
  | .cleared :: _ => none
  | .called _ _ :: rest | .got _ _ :: rest => standing key rest

/-- The puts that were called, and those that took effect, newest first. -/
def calls : List (Event K V) → List (K × V)
  | [] => []
  | .called k v :: rest => (k, v) :: calls rest
  | _ :: rest => calls rest

def puts : List (Event K V) → List (K × V)
  | [] => []
  | .inserted k v _ _ _ :: rest => (k, v) :: puts rest
  | _ :: rest => puts rest

structure Sound [DecidableEq K] (limit : Nat) (s : State K V) : Prop where
  bounded : s.table.size ≤ limit
  ordered : ∃ waiting, calls s.log = waiting ++ puts s.log
  readable : ∀ {newer between older key value found replaced victim answer},
    s.log = newer ++
      .got key answer :: (between ++ .inserted key value found replaced victim :: older) →
    (∀ e ∈ between, ¬ Removes key e) → answer = some value
  replacing : ∀ {key value found replaced victim}, .inserted key value found replaced victim ∈ s.log →
    found = true ∨ replaced = true → victim = none
  fresh : ∀ {newer older key answer}, s.log = newer ++ .got key answer :: older →
    answer = none ∨ answer = lastPut key older

section table
variable [DecidableEq K] {t : Table K V} {key : K}

omit [DecidableEq K] in
theorem size_keys (t : Table K V) : t.size = t.keys.length := by
  rw [Table.size, AList.keys, List.keys, List.length_map]

theorem size_erase_mem (mem : key ∈ t) : (Table.size (t.erase key)) + 1 = t.size := by
  rw [size_keys, size_keys, AList.keys_erase]
  exact List.length_erase_add_one (AList.mem_keys.mp mem)

theorem size_erase_le (t : Table K V) (key : K) : Table.size (t.erase key) ≤ t.size := by
  rw [size_keys, size_keys, AList.keys_erase]
  exact List.length_erase_le

theorem size_insert (t : Table K V) (key : K) (value : V) :
    Table.size (t.insert key value) = Table.size (t.erase key) + 1 := by
  rw [size_keys, size_keys, AList.keys_insert, AList.keys_erase, List.length_cons]

theorem lookup_erase_if (t : Table K V) (k key : K) :
    (t.erase k).lookup key = if k = key then none else t.lookup key := by
  split
  · next same => rw [same, AList.lookup_erase]
  · next other => exact AList.lookup_erase_ne (Ne.symm other)

theorem lookup_insert_if (t : Table K V) (k key : K) (value : V) :
    (t.insert k value).lookup key = if k = key then some value else t.lookup key := by
  split
  · next same => rw [same, AList.lookup_insert]
  · next other => exact AList.lookup_insert_ne (Ne.symm other)

def Room (limit : Nat) (t : Table K V) (key : K) : Prop := key ∈ t ∧ t.size ≤ limit ∨ t.size < limit

theorem Room.insert {limit : Nat} {value : V} (room : Room limit t key) :
    Table.size (t.insert key value) ≤ limit := by
  have le := size_erase_le t key
  rw [size_insert]
  rcases room with ⟨mem, bound⟩ | less
  · have eq := size_erase_mem mem
    omega
  · omega

theorem Room.erase {limit : Nat} {k : K} (room : Room limit t key) : Room limit (t.erase k) key := by
  have le := size_erase_le t k
  rcases room with ⟨mem, bound⟩ | less
  · by_cases same : key = k
    · subst same
      have eq := size_erase_mem mem
      exact .inr (by omega)
    · exact .inl ⟨AList.mem_erase.mpr ⟨same, mem⟩, by omega⟩
  · exact .inr (by omega)

theorem Room.evict {limit : Nat} (room : Room limit t key) : Table.size (t.erase key) < limit := by
  have le := size_erase_le t key
  rcases room with ⟨mem, bound⟩ | less
  · have eq := size_erase_mem mem
    omega
  · omega

end table

section log
variable [DecidableEq K] {key : K} {value : V} {log between older : List (Event K V)}

theorem standing_last (there : standing key log = some value) : lastPut key log = some value := by
  induction log with
  | nil => cases there
  | cons e rest ih =>
    cases e with
    | called | got => exact ih there
    | cleared => cases there
    | evicted k | deleted k =>
      rw [standing] at there
      split at there
      · cases there
      · exact ih there
    | inserted k v =>
      rw [standing] at there
      rw [lastPut]
      split at there
      · next same => rw [if_pos same, there]
      · next other => rw [if_neg other, ih there]

theorem standing_kept (kept : ∀ e ∈ between, ¬ Removes key e) :
    standing key (between ++ older) = standing key older := by
  induction between with
  | nil => rfl
  | cons e rest ih =>
    have here := kept e List.mem_cons_self
    have later := ih fun e mem => kept e (List.mem_cons_of_mem _ mem)
    rw [List.cons_append]
    cases e with
    | called | got => exact later
    | cleared => exact absurd trivial here
    | evicted k | deleted k | inserted k v =>
      exact (if_neg here).trans later

end log

section invariant
variable [DecidableEq K] {limit : Nat} {s s' : State K V} {t : Table K V} {server : Server K V}

def Serving (limit : Nat) (t : Table K V) : Server K V → Prop
  | .idle | .lookup _ _ => True
  | .size key _ | .first key _ => key ∉ t
  | .delete key _ oldest => key ∉ t ∧ Room limit t oldest
  | .insert key _ found victim =>
      Room limit t key ∧ (found = true → victim = none) ∧ (found = false → key ∉ t)

def current : Server K V → List (K × V)
  | .idle => []
  | .lookup key value | .size key value | .first key value | .delete key value _
  | .insert key value _ _ =>
      [(key, value)]

def Honest : Event K V → List (Event K V) → Prop
  | .got key answer, older => answer = standing key older
  | .inserted _ _ found replaced victim, _ => found = true ∨ replaced = true → victim = none
  | _, _ => True

def AllHonest (log : List (Event K V)) : Prop :=
  ∀ newer e older, log = newer ++ e :: older → Honest e older

structure Inv (limit : Nat) (s : State K V) : Prop where
  bounded : s.table.size ≤ limit
  serving : Serving limit s.table s.server
  mirror : ∀ key, s.table.lookup key = standing key s.log
  ordered : calls s.log = s.mailbox.reverse ++ (current s.server ++ puts s.log)
  honest : AllHonest s.log

theorem Serving.erase (serving : Serving limit t server) (k : K) :
    Serving limit (t.erase k) server := by
  have gone {key : K} (absent : key ∉ t) : key ∉ t.erase k :=
    fun mem => absent (AList.mem_erase.mp mem).2
  cases server with
  | idle | lookup => trivial
  | size | first => exact gone serving
  | delete => exact ⟨gone serving.1, serving.2.erase⟩
  | insert => exact ⟨serving.1.erase, serving.2.1, fun absent => gone (serving.2.2 absent)⟩

omit [DecidableEq K] in
theorem Serving.clear (some_room : 1 ≤ limit) (serving : Serving limit t server) :
    Serving limit ∅ server := by
  have room (key : K) : Room limit (∅ : Table K V) key := .inr some_room
  cases server with
  | idle | lookup => trivial
  | size | first => exact AList.notMem_empty _
  | delete => exact ⟨AList.notMem_empty _, room _⟩
  | insert => exact ⟨room _, serving.2.1, fun _ => AList.notMem_empty _⟩

theorem honest_cons {log : List (Event K V)} {e : Event K V} (here : Honest e log)
    (before : AllHonest log) : AllHonest (e :: log) := by
  intro newer e' older split
  cases newer with
  | nil =>
    obtain ⟨rfl, rfl⟩ := List.cons.inj split
    exact here
  | cons d newer => exact before newer e' older (List.cons.inj split).2

theorem inv_init : Inv limit (State.init : State K V) where
  bounded := Nat.zero_le limit
  serving := trivial
  mirror _ := rfl
  ordered := rfl
  honest _ _ _ split := absurd split (by simp [State.init])

theorem inv_serve (some_room : 1 ≤ limit) (inv : Inv limit s) {first : Option K}
    (moved : serve limit s first = some s') : Inv limit s' := by
  obtain ⟨table, mailbox, server, log⟩ := s
  obtain ⟨bounded, serving, mirror, ordered, honest⟩ := inv
  cases server with
  | idle =>
    cases mailbox with
    | nil => cases moved
    | cons call rest =>
      obtain rfl := Option.some.inj moved
      refine ⟨bounded, trivial, mirror, ?_, honest⟩
      simpa [current] using ordered
  | lookup key value =>
    obtain rfl := Option.some.inj moved
    dsimp only
    split
    · next absent => exact ⟨bounded, AList.lookup_eq_none.mp absent, mirror, ordered, honest⟩
    · next present =>
      have mem : key ∈ table := AList.lookup_isSome.mp (Option.isSome_iff_ne_none.mpr present)
      exact ⟨bounded, ⟨.inl ⟨mem, bounded⟩, fun _ => rfl, fun no => by cases no⟩, mirror,
        ordered, honest⟩
  | size key value =>
    obtain rfl := Option.some.inj moved
    dsimp only
    split
    · exact ⟨bounded, serving, mirror, ordered, honest⟩
    · next less =>
      have room := Nat.lt_of_not_le less
      exact ⟨bounded, ⟨.inr room, fun no => (by cases no), fun _ => serving⟩, mirror, ordered, honest⟩
  | first key value =>
    cases first with
    | none =>
      obtain ⟨empty, same⟩ := Option.ite_none_right_eq_some.mp moved
      obtain rfl := Option.some.inj same
      have less : table.size < limit := by
        rw [show table.size = 0 from empty]
        exact some_room
      exact ⟨bounded, ⟨.inr less, fun no => (by cases no), fun _ => serving⟩, mirror, ordered, honest⟩
    | some oldest =>
      obtain ⟨mem, same⟩ := Option.ite_none_right_eq_some.mp moved
      obtain rfl := Option.some.inj same
      exact ⟨bounded, ⟨serving, .inl ⟨mem, bounded⟩⟩, mirror, ordered, honest⟩
  | delete key value oldest =>
    obtain rfl := Option.some.inj moved
    have less := serving.2.evict
    refine ⟨Nat.le_of_lt less, ⟨.inr less, fun no => (by cases no), fun _ mem => ?_⟩,
      fun key => ?_, ordered, honest_cons trivial honest⟩
    · exact serving.1 (AList.mem_erase.mp mem).2
    · exact (lookup_erase_if table oldest key).trans (if_congr Iff.rfl rfl (mirror key))
  | insert key value found victim =>
    obtain rfl := Option.some.inj moved
    obtain ⟨room, kept, absent⟩ := serving
    refine ⟨room.insert, trivial, fun k => ?_, ?_, honest_cons ?_ honest⟩
    · exact (lookup_insert_if table key k value).trans (if_congr Iff.rfl rfl (mirror k))
    · simpa [calls, puts, current] using ordered
    · -- an entry that is replaced was there at the lookup: only the server inserts
      rintro (was | was)
      · exact kept was
      · refine kept ?_
        by_contra not_found
        exact absent (Bool.eq_false_iff.mpr not_found) (of_decide_eq_true was)

theorem inv_step (some_room : 1 ≤ limit) (inv : Inv limit s) {a : Label K V}
    (moved : step limit s a = some s') : Inv limit s' := by
  obtain ⟨bounded, serving, mirror, ordered, honest⟩ := inv
  cases a with
  | put key value =>
    obtain rfl := Option.some.inj moved
    refine ⟨bounded, serving, mirror, ?_, honest_cons trivial honest⟩
    simp [calls, puts, ordered]
  | get key =>
    obtain rfl := Option.some.inj moved
    exact ⟨bounded, serving, mirror, ordered, honest_cons (mirror key) honest⟩
  | delete key =>
    obtain rfl := Option.some.inj moved
    have smaller := Nat.le_trans (size_erase_le s.table key) bounded
    refine ⟨smaller, serving.erase key, fun k => ?_, ordered, honest_cons trivial honest⟩
    exact (lookup_erase_if s.table key k).trans (if_congr Iff.rfl rfl (mirror k))
  | clear =>
    obtain rfl := Option.some.inj moved
    exact ⟨Nat.zero_le limit, serving.clear some_room, fun _ => rfl, ordered,
      honest_cons trivial honest⟩
  | serve first => exact inv_serve some_room ⟨bounded, serving, mirror, ordered, honest⟩ moved

theorem sound_of (inv : Inv limit s) : Sound limit s where
  bounded := inv.bounded
  ordered := ⟨s.mailbox.reverse ++ current s.server, by rw [inv.ordered, List.append_assoc]⟩
  readable := by
    intro newer between older key value found replaced victim answer split kept
    have seen : answer = standing key _ := inv.honest _ _ _ split
    rw [seen, standing_kept kept, standing, if_pos rfl]
  replacing := by
    intro key value found replaced victim mem
    obtain ⟨newer, older, split⟩ := List.append_of_mem mem
    exact inv.honest _ _ _ split
  fresh := by
    intro newer older key answer split
    have seen : answer = standing key older := inv.honest _ _ _ split
    cases there : standing key older with
    | none => exact .inl (seen.trans there)
    | some value => exact .inr (seen.trans (there.trans (standing_last there).symm))

/-- Whatever the order of the steps, the table keeps to its limit, a read finds what the last put of the
    key wrote or nothing, and nothing only after something removed it. -/
theorem cache_sound (some_room : 1 ≤ limit) (run : Run (step limit) anyStep State.init s) :
    Sound limit s :=
  sound_of (run_invariant (Inv limit) run inv_init fun _ _ _ inv _ moved =>
    inv_step some_room inv moved)

/-- Two puts into a table of one entry; the entry to evict is deleted by another process before the
    server gets there. -/
def crossing : List (Label Nat Nat) :=
  [.put 1 10, .put 2 20, .serve none, .serve none, .serve none, .serve none, .get 1, .serve none,
    .serve none, .serve none, .serve (some 1), .delete 1, .serve none, .get 1, .serve none, .get 2]

theorem crossing_sound : ∃ s, follow (step 1) State.init crossing = some s ∧
    s.log.head? = some (.got 2 (some 20)) ∧ Sound 1 s :=
  ⟨_, rfl, rfl, cache_sound (by decide) (@run_of_follow _ _ _ _ _ crossing rfl)⟩

end invariant

end NxTinygrad.ExecutableCache
