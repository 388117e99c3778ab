import Mathlib.Data.List.Induction

/-!
# Command lines

A command line is read from left to right: an argument that names an option is taken together
with the argument behind it, any other stands for itself, and each is applied to the options so
far.
-/
namespace MarketLab.Control

inductive Item (α : Type) where
  | valued (name value : α)
  | single (argument : α)
  deriving DecidableEq, Repr

def Item.words {α : Type} : Item α → List α
  | .valued name value => [name, value]
  | .single argument => [argument]

/-- Which arguments are followed by a value, what is thrown where it is missing, and what an item
does to the options. -/
structure Options (α ε σ : Type) where
  takesValue : α → Bool
  missing : α → ε
  apply : σ → Item α → Except ε σ

namespace Options
variable {α ε σ : Type} (options : Options α ε σ)

def parse (state : σ) : List α → Except ε σ
  | [] => .ok state
  | [argument] =>
    if options.takesValue argument then .error (options.missing argument)
    else options.apply state (.single argument)
  | argument :: next :: rest =>
    if options.takesValue argument then
      match options.apply state (.valued argument next) with
      | .error thrown => .error thrown
      | .ok state => parse state rest
    else
      match options.apply state (.single argument) with
      | .error thrown => .error thrown
      | .ok state => parse state (next :: rest)

/-- The items a command line is made of. -/
def Proper : Item α → Prop
  | .valued name _ => options.takesValue name = true
  | .single argument => options.takesValue argument = false

variable {options} {state final : σ} {arguments : List α} {items : List (Item α)}

theorem parse_single {argument : α} (plain : options.takesValue argument = false)
    (rest : List α) : options.parse state (argument :: rest) =
      match options.apply state (.single argument) with
      | .error thrown => .error thrown
      | .ok state => options.parse state rest := by
  cases rest with
  | cons next rest =>
    rw [parse, if_neg (by simp [plain])]
  | nil =>
    rw [parse, if_neg (by simp [plain])]
    cases options.apply state (.single argument) <;> rfl

theorem parse_valued {name : α} (named : options.takesValue name = true) (value : α)
    (rest : List α) : options.parse state (name :: value :: rest) =
      match options.apply state (.valued name value) with
      | .error thrown => .error thrown
      | .ok state => options.parse state rest := by
  rw [parse, if_pos named]

/-- Items are read one after the other. -/
theorem parse_words (proper : ∀ item ∈ items, options.Proper item) :
    options.parse state (items.flatMap Item.words) = items.foldlM options.apply state := by
  induction items generalizing state with
  | nil => rfl
  | cons item items ih =>
    obtain ⟨here, later⟩ := List.forall_mem_cons.mp proper
    rw [List.flatMap_cons, List.foldlM_cons]
    cases item with
    | single argument =>
      rw [Item.words, List.singleton_append, parse_single here]
      cases options.apply state (.single argument) with
      | error thrown => rfl
      | ok next => exact ih later
    | valued name value =>
      rw [Item.words, List.cons_append, List.singleton_append, parse_valued here]
      cases options.apply state (.valued name value) with
      | error thrown => rfl
      | ok next => exact ih later

/-- A command line is items, or it breaks off behind an option. -/
theorem exists_items (options : Options α ε σ) (arguments : List α) :
    ∃ items : List (Item α), (∀ item ∈ items, options.Proper item) ∧
      (arguments = items.flatMap Item.words ∨
        ∃ name, options.takesValue name = true ∧
          arguments = items.flatMap Item.words ++ [name]) := by
  induction arguments using List.twoStepInduction with
  | nil => exact ⟨[], fun _ => nofun, .inl rfl⟩
  | singleton argument =>
    cases named : options.takesValue argument with
    | true => exact ⟨[], fun _ => nofun, .inr ⟨argument, named, rfl⟩⟩
    | false => exact ⟨[.single argument], List.forall_mem_singleton.mpr named, .inl rfl⟩
  | cons_cons argument next rest short long =>
    cases named : options.takesValue argument with
    | true =>
      obtain ⟨items, proper, split⟩ := short
      refine ⟨.valued argument next :: items, List.forall_mem_cons.mpr ⟨named, proper⟩, ?_⟩
      exact split.imp (congrArg (argument :: next :: ·)) fun ⟨name, takes, whole⟩ =>
        ⟨name, takes, congrArg (argument :: next :: ·) whole⟩
    | false =>
      obtain ⟨items, proper, split⟩ := long next
      refine ⟨.single argument :: items, List.forall_mem_cons.mpr ⟨named, proper⟩, ?_⟩
      exact split.imp (congrArg (argument :: ·)) fun ⟨name, takes, whole⟩ =>
        ⟨name, takes, congrArg (argument :: ·) whole⟩

/-- A command line that breaks off behind an option is refused. -/
theorem parse_broken (state : σ) (proper : ∀ item ∈ items, options.Proper item) {name : α}
    (named : options.takesValue name = true) :
    ∃ thrown, options.parse state (items.flatMap Item.words ++ [name]) = .error thrown := by
  induction items generalizing state with
  | nil => exact ⟨options.missing name, by rw [List.flatMap_nil, List.nil_append, parse, if_pos named]⟩
  | cons item items ih =>
    obtain ⟨here, later⟩ := List.forall_mem_cons.mp proper
    rw [List.flatMap_cons]
    cases item with
    | single argument =>
      rw [Item.words, List.singleton_append, List.cons_append, parse_single here]
      cases options.apply state (.single argument) with
      | error thrown => exact ⟨thrown, rfl⟩
      | ok next => exact ih next later
    | valued name value =>
      rw [Item.words, List.cons_append, List.singleton_append, List.cons_append, List.cons_append,
        parse_valued here]
      cases options.apply state (.valued name value) with
      | error thrown => exact ⟨thrown, rfl⟩
      | ok next => exact ih next later

/-- A command line is accepted just when it is items, one behind the other, that can be applied in
order. -/
theorem parse_ok_iff : options.parse state arguments = .ok final ↔
    ∃ items : List (Item α), (∀ item ∈ items, options.Proper item) ∧
      arguments = items.flatMap Item.words ∧ items.foldlM options.apply state = .ok final := by
  constructor
  · intro parsed
    obtain ⟨items, proper, rfl | ⟨name, named, rfl⟩⟩ := exists_items options arguments
    · rw [parse_words proper] at parsed
      exact ⟨items, proper, rfl, parsed⟩
    · obtain ⟨thrown, refused⟩ := parse_broken state proper named
      rw [refused] at parsed
      cases parsed
  · rintro ⟨items, proper, rfl, applied⟩
    rw [parse_words proper, applied]

/-! ## Arguments -/

section Arguments
variable {δ : Type}

/-- What the items of a program mean: an item is applied when it writes an argument that is allowed
in the state, and then sets it. -/
structure Reads (options : Options α ε σ) (item : δ → Item α) (allowed : σ → δ → Prop)
    (set : σ → δ → σ) : Prop where
  proper : ∀ {state argument}, allowed state argument → options.Proper (item argument)
  applied : ∀ {state written after}, options.Proper written →
    (options.apply state written = .ok after ↔
      ∃ argument, written = item argument ∧ allowed state argument ∧ after = set state argument)

variable (allowed : σ → δ → Prop) (set : σ → δ → σ)

/-- Each argument is allowed behind the ones in front of it. -/
def Allowed : σ → List δ → Prop
  | _, [] => True
  | state, argument :: given => allowed state argument ∧ Allowed (set state argument) given

variable {allowed set} {item : δ → Item α}

theorem allowed_snoc {given : List δ} {argument : δ} : Allowed allowed set state (given ++ [argument]) ↔
    Allowed allowed set state given ∧ allowed (given.foldl set state) argument := by
  induction given generalizing state with
  | nil => exact and_comm
  | cons first given ih => exact (and_congr_right fun _ => ih).trans and_assoc.symm

theorem Reads.foldlM_apply (reads : options.Reads item allowed set)
    (proper : ∀ written ∈ items, options.Proper written) :
    items.foldlM options.apply state = .ok final ↔
      ∃ given : List δ, items = given.map item ∧ Allowed allowed set state given ∧
        final = given.foldl set state := by
  induction items generalizing state with
  | nil =>
    constructor
    · exact fun same => ⟨[], rfl, trivial, (Except.ok.inj same).symm⟩
    · rintro ⟨given, none, -, rfl⟩
      obtain rfl := List.map_eq_nil_iff.mp none.symm
      rfl
  | cons written items ih =>
    obtain ⟨here, later⟩ := List.forall_mem_cons.mp proper
    rw [List.foldlM_cons]
    constructor
    · intro folded
      cases applied : options.apply state written with
      | error thrown =>
        rw [applied] at folded
        cases folded
      | ok after =>
        obtain ⟨argument, rfl, allows, rfl⟩ := (reads.applied here).mp applied
        rw [applied] at folded
        obtain ⟨given, rfl, rest, rfl⟩ := (ih later).mp folded
        exact ⟨argument :: given, rfl, ⟨allows, rest⟩, rfl⟩
    · rintro ⟨given, split, allows, rfl⟩
      cases given with
      | nil => cases split
      | cons argument given =>
        obtain ⟨rfl, rfl⟩ := List.cons.inj split
        rw [(reads.applied here).mpr ⟨argument, rfl, allows.1, rfl⟩]
        exact (ih later).mpr ⟨given, rfl, allows.2, rfl⟩

theorem Reads.proper_of_allowed (reads : options.Reads item allowed set) {given : List δ}
    (allows : Allowed allowed set state given) : ∀ written ∈ given.map item, options.Proper written := by
  induction given generalizing state with
  | nil => exact List.forall_mem_nil _
  | cons argument given ih => exact List.forall_mem_cons.mpr ⟨reads.proper allows.1, ih allows.2⟩

/-- A command line is accepted just when it writes arguments of which each is allowed behind the
ones in front of it. -/
theorem Reads.parse_ok (reads : options.Reads item allowed set) :
    options.parse state arguments = .ok final ↔
      ∃ given : List δ, arguments = given.flatMap (fun argument => (item argument).words) ∧
        Allowed allowed set state given ∧ final = given.foldl set state := by
  rw [parse_ok_iff]
  constructor
  · rintro ⟨items, proper, rfl, folded⟩
    obtain ⟨given, rfl, allows, rfl⟩ := (reads.foldlM_apply proper).mp folded
    exact ⟨given, List.flatMap_map .., allows, rfl⟩
  · rintro ⟨given, rfl, allows, rfl⟩
    have proper := reads.proper_of_allowed allows
    exact ⟨given.map item, proper, (List.flatMap_map ..).symm,
      (reads.foldlM_apply proper).mpr ⟨given, rfl, allows, rfl⟩⟩

end Arguments

/-! ## Positional arguments -/

/-- An argument of a program that counts those that are not options. -/
inductive Word (φ α : Type) where
  | flag (flag : φ)
  | positional (text : α)
  deriving DecidableEq

def Word.text? {φ : Type} : Word φ α → Option α
  | .flag _ => none
  | .positional text => some text

def Word.flag? {φ : Type} : Word φ α → Option φ
  | .flag chosen => some chosen
  | .positional _ => none

/-- The state with the number of positional arguments so far. -/
structure Placed (σ : Type) where
  state : σ
  index : Nat := 0

section Positional
variable {φ : Type}

def positionals (given : List (Word φ α)) : List α := given.filterMap Word.text?
def flags (given : List (Word φ α)) : List φ := given.filterMap Word.flag?

theorem positionals_snoc (given : List (Word φ α)) (argument : Word φ α) :
    positionals (given ++ [argument]) = positionals given ++ argument.text?.toList := by
  unfold positionals
  rw [List.filterMap_append]
  cases found : argument.text? <;> simp [found]

theorem flags_snoc (given : List (Word φ α)) (argument : Word φ α) :
    flags (given ++ [argument]) = flags given ++ argument.flag?.toList := by
  unfold flags
  rw [List.filterMap_append]
  cases found : argument.flag? <;> simp [found]

variable (flagAllowed : φ → Prop) (placeAllowed : Nat → α → Prop) (limit : Nat)

def Placed.Allows (placed : Placed σ) : Word φ α → Prop
  | .flag flag => flagAllowed flag
  | .positional text => placed.index < limit ∧ placeAllowed placed.index text

/-- Flags and positional arguments that are allowed in their places. -/
structure Acceptable (given : List (Word φ α)) : Prop where
  flags : ∀ flag, .flag flag ∈ given → flagAllowed flag
  few : (positionals given).length ≤ limit
  places : ∀ index text, (positionals given)[index]? = some text → placeAllowed index text

variable {flagAllowed placeAllowed limit}

theorem acceptable_snoc {given : List (Word φ α)} {argument : Word φ α} {placed : Placed σ}
    (index : placed.index = (positionals given).length) :
    Acceptable flagAllowed placeAllowed limit (given ++ [argument]) ↔
      Acceptable flagAllowed placeAllowed limit given ∧
        placed.Allows flagAllowed placeAllowed limit argument := by
  have texts := positionals_snoc given argument
  cases argument with
  | flag flag =>
    rw [Word.text?, Option.toList_none, List.append_nil] at texts
    constructor
    · rintro ⟨flags, few, places⟩
      rw [texts] at few places
      exact ⟨⟨fun other member => flags other (List.mem_append_left _ member), few, places⟩,
        flags flag (List.mem_append_right _ (List.mem_singleton_self _))⟩
    · rintro ⟨⟨flags, few, places⟩, here⟩
      refine ⟨fun other member => ?_, by rwa [texts], by rwa [texts]⟩
      rcases List.mem_append.mp member with old | new
      · exact flags other old
      · obtain rfl := Word.flag.inj (List.mem_singleton.mp new)
        exact here
  | positional text =>
    rw [Word.text?, Option.toList_some] at texts
    rw [Placed.Allows, index]
    constructor
    · rintro ⟨flags, few, places⟩
      rw [texts] at places
      rw [texts, List.length_append, List.length_singleton] at few
      refine ⟨⟨fun other member => flags other (List.mem_append_left _ member), by omega,
        fun place other found => ?_⟩, by omega, places _ _ List.getElem?_concat_length⟩
      obtain ⟨inside, -⟩ := List.getElem?_eq_some_iff.mp found
      exact places place other (by rwa [List.getElem?_append_left inside])
    · rintro ⟨⟨flags, few, places⟩, room, here⟩
      refine ⟨fun other member => ?_, ?_, fun place other found => ?_⟩
      · rcases List.mem_append.mp member with old | new
        · exact flags other old
        · cases List.mem_singleton.mp new
      · rw [texts, List.length_append, List.length_singleton]
        omega
      · rw [texts] at found
        rcases Nat.lt_trichotomy place (positionals given).length with inside | last | past
        · rw [List.getElem?_append_left inside] at found
          exact places place other found
        · subst last
          rw [List.getElem?_concat_length] at found
          exact Option.some.inj found ▸ here
        · have none : (positionals given ++ [text])[place]? = none := by
            rw [List.getElem?_eq_none_iff, List.length_append, List.length_singleton]
            omega
          rw [none] at found
          cases found

variable (flag : σ → φ → σ) (place : σ → α → Nat → σ)

def Placed.with (placed : Placed σ) : Word φ α → Placed σ
  | .flag chosen => { placed with state := flag placed.state chosen }
  | .positional text => { state := place placed.state text placed.index, index := placed.index + 1 }

theorem Placed.index_foldl (state : σ) (given : List (Word φ α)) :
    (given.foldl (Placed.with flag place) { state }).index = (positionals given).length := by
  induction given using List.reverseRecOn with
  | nil => rfl
  | append_singleton given argument ih =>
    rw [List.foldl_append, List.foldl_cons, List.foldl_nil, positionals_snoc]
    cases argument with
    | flag chosen =>
      rw [Word.text?, Option.toList_none, List.append_nil]
      exact ih
    | positional text =>
      rw [Word.text?, Option.toList_some, List.length_append, List.length_singleton, ← ih]
      rfl

/-- Each argument is allowed behind the ones in front of it just when all are in their places. -/
theorem allowed_iff_acceptable (state : σ) (given : List (Word φ α)) :
    Allowed (Placed.Allows flagAllowed placeAllowed limit) (Placed.with flag place)
      { state } given ↔ Acceptable flagAllowed placeAllowed limit given := by
  induction given using List.reverseRecOn with
  | nil => exact ⟨fun _ => ⟨fun _ => nofun, Nat.zero_le _, fun _ _ => nofun⟩, fun _ => trivial⟩
  | append_singleton given argument ih =>
    rw [allowed_snoc, ih, acceptable_snoc (Placed.index_foldl flag place state given)]

variable {flag place}

/-- A command line is accepted just when it writes flags and positional arguments that are allowed
in their places. -/
theorem Reads.positional_ok {options : Options α ε (Placed σ)} {item : Word φ α → Item α}
    (reads : options.Reads item (Placed.Allows flagAllowed placeAllowed limit)
      (Placed.with flag place)) :
    (options.parse { state } arguments).map Placed.state = .ok final ↔
      ∃ given : List (Word φ α), arguments = given.flatMap (fun argument => (item argument).words) ∧
        Acceptable flagAllowed placeAllowed limit given ∧
        final = (given.foldl (Placed.with flag place) { state }).state := by
  constructor
  · intro parsed
    cases read : options.parse { state } arguments with
    | error thrown =>
      rw [read] at parsed
      cases parsed
    | ok placed =>
      rw [read] at parsed
      obtain rfl := Except.ok.inj parsed
      obtain ⟨given, written, allowed, rfl⟩ := reads.parse_ok.mp read
      exact ⟨given, written, (allowed_iff_acceptable flag place state given).mp allowed, rfl⟩
  · rintro ⟨given, written, acceptable, rfl⟩
    have allowed := (allowed_iff_acceptable flag place state given).mpr acceptable
    rw [reads.parse_ok.mpr ⟨given, written, allowed, rfl⟩]
    rfl

end Positional
end Options
end MarketLab.Control
