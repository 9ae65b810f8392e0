import Mathlib.Data.List.Nodup
import Mathlib.Logic.Equiv.Basic
import Mathlib.Logic.Function.Basic
import Mathlib.Order.Fin.Basic
import Precedence.Proofs.Registration

/-!
What registrations build, whatever their order. In each position a token has the binding
that was given to it last there; a token that is named in the other position only is
marked as an error, and one that no registration names is in the table for neither. So
registrations may change places as long as those that give a token a binding in the same
position stay in order. The positions could have a map each: a registration overwrites
its tokens in one of them, and adds those that the other lacks.
-/

namespace Precedence

namespace Registration

/-- The power of a registration is a 32-bit number. -/
def Fits : Registration → Prop
  | .nilfix _ _ => True
  | .leading power _ _ => -0x80000000 ≤ power ∧ power ≤ 0x7FFFFFFF
  | .following _ power _ _ => -0x80000000 ≤ power ∧ power ≤ 0x7FFFFFFF

/-- A registration behind an operand whose power is not above zero, or is the greatest
number and has to be exceeded by what follows the operator. -/
def Refused : Registration → Prop
  | .following fixity power _ _ =>
      power ≤ 0 ∨ (fixity = .leftAssoc ∨ fixity = .rightAssoc) ∧ power = 0x7FFFFFFF
  | _ => False

theorem fault?_ne_none_iff {registration : Registration} (h : registration.Fits) :
    registration.fault? ≠ none ↔ registration.Refused := by
  cases registration with
  | nilfix => simp [fault?, Refused]
  | leading => simp [fault?, Refused]
  | following fixity power rule symbols =>
      have hgreatest : 0x80000000 ≤ power + 1 ↔ power = 0x7FFFFFFF := by
        have := h.2
        omega
      simp only [fault?, Refused, minPower, hgreatest]
      by_cases hlow : power ≤ 0
      · simp [hlow]
      · simp [hlow]

/-- Both registrations give some token a binding in the same position. -/
def Competes (registration other : Registration) : Prop :=
  ∃ key, (registration.null? key).isSome ∧ (other.null? key).isSome ∨
    (registration.left? key).isSome ∧ (other.left? key).isSome

/-- The same registrations in another order, in which those that compete stay in order. -/
structure Reordering (registrations registrations' : List Registration) where
  place : Fin registrations.length ≃ Fin registrations'.length
  same : ∀ i, registrations'.get (place i) = registrations.get i
  keeps : ∀ i j, i < j → (registrations.get i).Competes (registrations.get j) →
    place i < place j

/-- What was given last was given somewhere, and nothing was given behind. -/
theorem exists_last {β : Type} {given : Registration → Option β}
    {registrations : List Registration} {value : β}
    (h : registrations.reverse.findSome? given = some value) :
    ∃ i, given (registrations.get i) = some value ∧
      ∀ j, i < j → given (registrations.get j) = none := by
  obtain ⟨behind, last, before, hall, hlast, hbehind⟩ := List.findSome?_eq_some_iff.mp h
  obtain rfl : registrations = (before.reverse ++ [last]) ++ behind.reverse := by
    simpa using congrArg List.reverse hall
  refine ⟨⟨before.reverse.length, by simp⟩, by simpa using hlast, fun j hlt => ?_⟩
  have hle : (before.reverse ++ [last]).length ≤ j := by
    rw [List.length_append]
    exact hlt
  apply hbehind
  rw [List.get_eq_getElem, List.getElem_append_right hle]
  exact List.mem_reverse.mp (List.getElem_mem _)

/-- What is given somewhere with nothing behind is given last. -/
theorem last_of_behind {β : Type} {given : Registration → Option β}
    {registrations : List Registration} {value : β} {i : Fin registrations.length}
    (hi : given (registrations.get i) = some value)
    (hbehind : ∀ j, i < j → given (registrations.get j) = none) :
    registrations.reverse.findSome? given = some value := by
  cases hlast : registrations.reverse.findSome? given with
  | none =>
      have hnone := List.findSome?_eq_none_iff.mp hlast (registrations.get i) (by simp)
      cases hi.symm.trans hnone
  | some value' =>
      obtain ⟨i', hi', hbehind'⟩ := exists_last hlast
      rcases lt_trichotomy i i' with hlt | rfl | hlt
      · cases hi'.symm.trans (hbehind _ hlt)
      · exact hi'.symm.trans hi
      · cases hi.symm.trans (hbehind' _ hlt)

namespace Reordering

variable {registrations registrations' : List Registration}
  (order : Reordering registrations registrations')

include order

theorem same_symm (j : Fin registrations'.length) :
    registrations.get (order.place.symm j) = registrations'.get j := by
  rw [← order.same, Equiv.apply_symm_apply]

theorem mem_iff {registration : Registration} :
    registration ∈ registrations' ↔ registration ∈ registrations := by
  simp only [List.mem_iff_get]
  constructor
  · rintro ⟨j, rfl⟩
    exact ⟨_, order.same_symm j⟩
  · rintro ⟨i, rfl⟩
    exact ⟨_, order.same i⟩

/-- What is given last is given last in the other order too, if registrations that give
anything compete. -/
theorem last_of_last {β : Type} {given : Registration → Option β}
    (hgiven : ∀ {registration other : Registration}, (given registration).isSome →
      (given other).isSome → registration.Competes other) {value : β}
    (h : registrations.reverse.findSome? given = some value) :
    registrations'.reverse.findSome? given = some value := by
  obtain ⟨i, hi, hbehind⟩ := exists_last h
  refine last_of_behind (order.same i ▸ hi) fun j hlt => ?_
  by_contra hne
  rw [← order.same_symm] at hne
  -- What gives something at `j` stood behind `i` before, as it competes with the one there.
  rcases lt_trichotomy (order.place.symm j) i with hlt' | heq | hlt'
  · have hcompetes := hgiven (Option.isSome_iff_ne_none.mpr hne)
      (Option.isSome_of_eq_some hi)
    have hplace := order.keeps _ _ hlt' hcompetes
    rw [Equiv.apply_symm_apply] at hplace
    exact lt_asymm hplace hlt
  · rw [← heq, Equiv.apply_symm_apply] at hlt
    exact lt_irrefl _ hlt
  · exact hne (hbehind _ hlt')

theorem last_eq {β : Type} {given : Registration → Option β}
    (hgiven : ∀ {registration other : Registration}, (given registration).isSome →
      (given other).isSome → registration.Competes other) :
    registrations'.reverse.findSome? given = registrations.reverse.findSome? given := by
  cases hlast : registrations.reverse.findSome? given with
  | some value => exact order.last_of_last hgiven hlast
  | none =>
      have hnone := List.findSome?_eq_none_iff.mp hlast
      apply List.findSome?_eq_none_iff.mpr
      intro registration hmem
      exact hnone _ (by simpa using order.mem_iff.mp (List.mem_reverse.mp hmem))

theorem lastNull?_eq (key : TokenKey) :
    lastNull? registrations' key = lastNull? registrations key :=
  order.last_eq fun h h' => ⟨key, .inl ⟨h, h'⟩⟩

theorem lastLeft?_eq (key : TokenKey) :
    lastLeft? registrations' key = lastLeft? registrations key :=
  order.last_eq fun h h' => ⟨key, .inr ⟨h, h'⟩⟩

end Reordering

end Registration

namespace OperatorTable

def registeredNull? (table : OperatorTable) (key : TokenKey) : Option (Binding NullRule) :=
  (table.find? key).map TableEntry.null

def registeredLeft? (table : OperatorTable) (key : TokenKey) : Option (Binding LeftRule) :=
  (table.find? key).map TableEntry.left

def Distinct (table : OperatorTable) : Prop := (table.entries.map Prod.fst).Nodup

theorem keys_alterEntries (key : TokenKey) (change : Option TableEntry → TableEntry)
    (entries : List (TokenKey × TableEntry)) :
    (alterEntries key change entries).map Prod.fst =
      if key ∈ entries.map Prod.fst then entries.map Prod.fst
      else entries.map Prod.fst ++ [key] := by
  induction entries with
  | nil => rfl
  | cons first rest ih =>
      obtain ⟨name, entry⟩ := first
      by_cases hname : key = name
      · simp [alterEntries, hname]
      · simp only [alterEntries, hname, if_false, List.map_cons, List.mem_cons, false_or, ih]
        split <;> rfl

theorem Distinct.alter {table : OperatorTable} (h : table.Distinct) (key : TokenKey)
    (change : Option TableEntry → TableEntry) : (table.alter key change).Distinct := by
  unfold Distinct OperatorTable.alter
  rw [keys_alterEntries]
  split
  · exact h
  · rename_i hkey
    refine List.nodup_append.mpr ⟨h, by simp, ?_⟩
    rintro name hname other hother rfl
    exact hkey (List.mem_singleton.mp hother ▸ hname)

theorem Distinct.install {table : OperatorTable} (h : table.Distinct)
    (registration : Registration) : (registration.install table).Distinct := by
  cases registration with
  | nilfix rule keys => exact List.foldlRecOn keys _ h fun _ h key _ => h.alter key _
  | leading power rule symbols => exact List.foldlRecOn _ _ h fun _ h key _ => h.alter key _
  | following fixity power rule symbols =>
      exact List.foldlRecOn _ _ h fun _ h key _ => h.alter key _

theorem distinct_installed (registrations : List Registration) :
    (registrations.foldl Registration.install .empty).Distinct :=
  List.foldlRecOn registrations _ List.nodup_nil fun _ h registration _ => h.install registration

theorem Distinct.mem_entries_iff {table : OperatorTable} (h : table.Distinct) {key : TokenKey}
    {entry : TableEntry} : (key, entry) ∈ table.entries ↔ table.find? key = some entry := by
  constructor
  · intro hmem
    obtain ⟨before, behind, hall⟩ := List.append_of_mem hmem
    refine List.lookup_eq_some_iff.mpr ⟨before, behind, hall, fun other hother => ?_⟩
    have hdistinct : ((before ++ (key, entry) :: behind).map Prod.fst).Nodup := hall ▸ h
    rw [List.map_append, List.nodup_append] at hdistinct
    have hne := hdistinct.2.2 other.1 (List.mem_map_of_mem hother) key (by simp)
    simpa using hne.symm
  · intro hfind
    obtain ⟨before, behind, hall, _⟩ := List.lookup_eq_some_iff.mp hfind
    simp [hall]

/-- Tables without double entries that say the same about every key are the same, up to
the order in which the keys were first named. -/
theorem Distinct.perm {table table' : OperatorTable} (h : table.Distinct) (h' : table'.Distinct)
    (hfind : ∀ key, table.find? key = table'.find? key) :
    table.entries.Perm table'.entries := by
  refine (List.perm_ext_iff_of_nodup (List.Nodup.of_map _ h) (List.Nodup.of_map _ h')).mpr ?_
  rintro ⟨key, entry⟩
  rw [h.mem_entries_iff, h'.mem_entries_iff, hfind]

end OperatorTable

structure Positions where
  null : TokenKey → Option (Binding NullRule)
  left : TokenKey → Option (Binding LeftRule)

namespace Positions

def empty : Positions := ⟨fun _ => none, fun _ => none⟩

/-- Overwrites the null binding of a key, and adds an error behind operands if it has no
binding there. -/
def setNull (binding : Binding NullRule) (maps : Positions) (key : TokenKey) : Positions where
  null := Function.update maps.null key (some binding)
  left := Function.update maps.left key (some ((maps.left key).getD (.inert .error)))

def setLeft (binding : Binding LeftRule) (maps : Positions) (key : TokenKey) : Positions where
  null := Function.update maps.null key (some ((maps.null key).getD (.inert .error)))
  left := Function.update maps.left key (some binding)

def install (maps : Positions) : Registration → Positions
  | .nilfix rule keys => keys.foldl (setNull ⟨minPower, minPower, maxPower, rule⟩) maps
  | .leading power rule symbols =>
      (symbols.map .symbol).foldl (setNull ⟨minPower, power, maxPower, rule⟩) maps
  | .following fixity power rule symbols =>
      (symbols.map .symbol).foldl (setLeft (fixity.binding power rule)) maps

end Positions

namespace OperatorTable

def positions (table : OperatorTable) : Positions :=
  ⟨table.registeredNull?, table.registeredLeft?⟩

theorem registeredNull?_alter (table : OperatorTable) (key : TokenKey)
    (change : Option TableEntry → TableEntry) :
    (table.alter key change).registeredNull? =
      Function.update table.registeredNull? key (some (change (table.find? key)).null) := by
  funext other
  rw [registeredNull?, find?_alter, Function.update_apply]
  split <;> rfl

theorem registeredLeft?_alter (table : OperatorTable) (key : TokenKey)
    (change : Option TableEntry → TableEntry) :
    (table.alter key change).registeredLeft? =
      Function.update table.registeredLeft? key (some (change (table.find? key)).left) := by
  funext other
  rw [registeredLeft?, find?_alter, Function.update_apply]
  split <;> rfl

theorem setNull_positions (binding : Binding NullRule) (table : OperatorTable)
    (key : TokenKey) :
    table.positions.setNull binding key = (table.setNull binding key).positions := by
  simp only [positions, setNull, Positions.setNull, registeredNull?_alter,
    registeredLeft?_alter, registeredLeft?]
  cases table.find? key <;> rfl

theorem setLeft_positions (binding : Binding LeftRule) (table : OperatorTable)
    (key : TokenKey) :
    table.positions.setLeft binding key = (table.setLeft binding key).positions := by
  simp only [positions, setLeft, Positions.setLeft, registeredNull?_alter,
    registeredLeft?_alter, registeredNull?]
  cases table.find? key <;> rfl

/-- A registration does to the entries what it does to two maps. -/
theorem install_positions (table : OperatorTable) (registration : Registration) :
    table.positions.install registration = (registration.install table).positions := by
  cases registration with
  | nilfix => exact List.foldl_hom positions (setNull_positions _)
  | leading => exact List.foldl_hom positions (setNull_positions _)
  | following => exact List.foldl_hom positions (setLeft_positions _)

theorem installed_positions (registrations : List Registration) :
    registrations.foldl Positions.install .empty =
      (registrations.foldl Registration.install .empty).positions := by
  rw [← List.foldl_hom positions install_positions]
  rfl

structure Records (table : OperatorTable) (registrations : List Registration) : Prop where
  distinct : table.Distinct
  /-- The table holds what two maps would, of which each registration overwrites one and
  completes the other. -/
  positions : table.positions = registrations.foldl Positions.install .empty
  /-- Where an operand is expected the last registration there decides, and a token that
  is only named behind operands is an error. -/
  null : ∀ key, table.registeredNull? key =
    (Registration.lastNull? registrations key).or
      ((Registration.lastLeft? registrations key).map fun _ => .inert .error)
  /-- Behind an operand the last registration there decides, and a token that is only named
  where an operand is expected is an error. -/
  left : ∀ key, table.registeredLeft? key =
    (Registration.lastLeft? registrations key).or
      ((Registration.lastNull? registrations key).map fun _ => .inert .error)
  /-- The same keys are registered in both positions. -/
  both : ∀ key, (table.registeredNull? key).isSome = (table.registeredLeft? key).isSome
  /-- Tokens that are not registered are looked up as such. -/
  lookupNull : ∀ token, table.null token =
    (table.registeredNull? token.key).getD (.inert .unregistered)
  lookupLeft : ∀ token, table.left token =
    (table.registeredLeft? token.key).getD (.inert .unregistered)

theorem records_build {registrations : List Registration} {table : OperatorTable}
    (h : build registrations = .ok table) : table.Records registrations where
  distinct := (build_eq_ok h).2 ▸ distinct_installed registrations
  positions := by rw [(build_eq_ok h).2, installed_positions]
  null key := by
    rw [registeredNull?, find?_build h]
    cases Registration.lastNull? registrations key <;>
      cases Registration.lastLeft? registrations key <;> rfl
  left key := by
    rw [registeredLeft?, find?_build h]
    cases Registration.lastNull? registrations key <;>
      cases Registration.lastLeft? registrations key <;> rfl
  both key := by rw [registeredNull?, registeredLeft?, Option.isSome_map, Option.isSome_map]
  lookupNull _ := rfl
  lookupLeft _ := rfl

theorem build_eq_error_iff {registrations : List Registration} :
    (∃ fault, build registrations = .error fault) ↔
      ∃ registration ∈ registrations, registration.fault? ≠ none := by
  unfold build
  split
  · rename_i fault hfault
    obtain ⟨registration, hmem, hsome⟩ := List.exists_of_findSome?_eq_some hfault
    exact ⟨fun _ => ⟨registration, hmem, by simp [hsome]⟩, fun _ => ⟨fault, rfl⟩⟩
  · rename_i hnone
    constructor
    · rintro ⟨fault, h⟩
      cases h
    · rintro ⟨registration, hmem, hne⟩
      exact absurd (List.findSome?_eq_none_iff.mp hnone registration hmem) hne

/-- Another order of the registrations gives the same table. -/
theorem build_reordered {registrations registrations' : List Registration}
    (order : Registration.Reordering registrations registrations') {table : OperatorTable}
    (h : build registrations = .ok table) :
    ∃ table', build registrations' = .ok table' ∧ table'.entries.Perm table.entries ∧
      ∀ key, table'.find? key = table.find? key := by
  cases h' : build registrations' with
  | error fault =>
      obtain ⟨registration, hmem, hfault⟩ := build_eq_error_iff.mp ⟨fault, h'⟩
      exact absurd ((build_eq_ok h).1 registration (order.mem_iff.mp hmem)) hfault
  | ok table' =>
      have hfind : ∀ key, table'.find? key = table.find? key := by
        intro key
        rw [find?_build h, find?_build h', order.lastNull?_eq, order.lastLeft?_eq]
      have hperm := (records_build h').distinct.perm (records_build h).distinct hfind
      exact ⟨table', rfl, hperm, hfind⟩

/-- Registrations whose powers are 32-bit numbers build no table if and only if one of them
is refused. Otherwise the table says of every token what was registered last in each
position; and the registrations build the same table in any other order in which those that
give a token a binding in the same position stay in order. -/
theorem build_records_last {registrations : List Registration}
    (hfits : ∀ registration ∈ registrations, registration.Fits) :
    ((∃ fault, build registrations = .error fault) ↔
      ∃ registration ∈ registrations, registration.Refused) ∧
    ∀ table, build registrations = .ok table → table.Records registrations ∧
      ∀ registrations' (_ : Registration.Reordering registrations registrations'),
        ∃ table', build registrations' = .ok table' ∧ table'.entries.Perm table.entries ∧
          ∀ key, table'.find? key = table.find? key := by
  constructor
  · rw [build_eq_error_iff]
    exact exists_congr fun registration =>
      and_congr_right fun hmem => Registration.fault?_ne_none_iff (hfits registration hmem)
  · intro table h
    exact ⟨records_build h, fun registrations' order => build_reordered order h⟩

end OperatorTable

namespace Registration

/-- A minus that is registered twice behind an operand, and as a sign in between. -/
def minuses : List Registration :=
  [.following .leftAssoc 10 .binary ["-", "+"], .leading 20 .prefixed ["-", "~"],
    .following .rightAssoc 30 .binary ["-"]]

def signFirst : List Registration :=
  [.leading 20 .prefixed ["-", "~"], .following .leftAssoc 10 .binary ["-", "+"],
    .following .rightAssoc 30 .binary ["-"]]

def minusesReordered : Reordering minuses signFirst where
  place := (Equiv.swap 0 1 : Equiv.Perm (Fin 3))
  same := by decide
  keeps := by
    have hplaces : ∀ i j : Fin 3, i < j → i = 0 ∧ j = 1 ∨
        Equiv.swap (0 : Fin 3) 1 i < Equiv.swap (0 : Fin 3) 1 j := by
      decide
    intro i j hlt hcompetes
    rcases hplaces i j hlt with ⟨rfl, rfl⟩ | hplace
    · simp [minuses, Competes, null?, left?] at hcompetes
    · exact hplace

end Registration

open Registration in
theorem OperatorTable.build_records_last_minus :
    (∀ registration ∈ minuses, registration.Fits) ∧ ∃ table table',
      build minuses = .ok table ∧ build signFirst = .ok table' ∧
      table.registeredNull? (.symbol "-") = some ⟨0, 20, 10000, .prefixed⟩ ∧
      table.registeredLeft? (.symbol "-") = some ⟨30, 29, 31, .binary⟩ ∧
      table.registeredNull? (.symbol "+") = some (.inert .error) ∧
      table'.entries.Perm table.entries := by
  have hfits : ∀ registration ∈ minuses, registration.Fits := by
    simp [minuses, Fits]
  obtain ⟨table, hbuild⟩ : ∃ table, build minuses = .ok table := ⟨_, rfl⟩
  obtain ⟨hrecords, hreordered⟩ := (build_records_last hfits).2 table hbuild
  obtain ⟨table', hbuild', hperm, _⟩ := hreordered signFirst minusesReordered
  refine ⟨hfits, table, table', hbuild, hbuild', ?_, ?_, ?_, hperm⟩
  · rw [hrecords.null]
    decide
  · rw [hrecords.left]
    decide
  · rw [hrecords.null]
    decide

end Precedence
