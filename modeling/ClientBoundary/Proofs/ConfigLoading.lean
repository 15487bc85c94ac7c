import ClientBoundary.Config.Reader
import ClientBoundary.Disk.Basic
import ClientBoundary.Proofs.JsonBreaks
import ClientBoundary.Proofs.JsonReader

/-!
# Loading a configuration

A file holds a configuration if its bytes are UTF-8, its text is JSON, and the value denotes one. What
else may be in it is a configuration error, with two exceptions: bytes that are not UTF-8, and an integer
with too many digits anywhere before the text goes wrong, be there a configuration around it or not.

* `Config.DenotedBy` — the values that denote a configuration.
* `Config.ofJson_eq_ok_iff` — these are the ones that are taken.
* `Text.decode?_eq_some_iff` — decoding undoes the encoding of a text, and nothing else.
* `Config.load_outcomes` — what comes of loading a configuration, for every content of the file.
-/

namespace ClientBoundary

-- ---------------------------------------------------------------------------------------------
-- Bytes
-- ---------------------------------------------------------------------------------------------

theorem Text.decode?_eq_some_iff {bytes : ByteArray} {t : Text} :
    Text.decode? bytes = some t ↔ ∃ s : String, bytes = s.toUTF8 ∧ t = s := by
  rw [Text.decode?, Option.map_eq_some_iff]
  refine exists_congr fun s => and_congr ?_ eq_comm
  rw [String.fromUTF8?]
  constructor
  · intro h
    split at h
    · rw [← Option.some.inj h]
      rfl
    · cases h
  · rintro rfl
    exact dif_pos s.isValidUTF8

theorem Text.decode?_eq_none_iff {bytes : ByteArray} :
    Text.decode? bytes = none ↔ ∀ s : String, bytes ≠ s.toUTF8 := by
  rw [Option.eq_none_iff_forall_not_mem]
  constructor
  · exact fun h s hs => h s (decode?_eq_some_iff.mpr ⟨s, hs, rfl⟩)
  · intro h t ht
    obtain ⟨s, hs, -⟩ := decode?_eq_some_iff.mp ht
    exact h s hs

namespace Config

-- ---------------------------------------------------------------------------------------------
-- Values
-- ---------------------------------------------------------------------------------------------

/-- The configuration that a value denotes. Among members with the same key the last one counts. -/
inductive DenotedBy : Json → Config → Prop where
  | all (on : Bool) : DenotedBy (.bool on) (.all on)
  | options {others : List (Text × Json)} (hOthers : ∀ m ∈ others, m.1 = serverKey)
      (isServer : Bool) :
      DenotedBy (.object (others ++ [(serverKey, .bool isServer)])) (.options isServer)

theorem unknownKeys_eq_nil_iff {members : List (Text × Json)} :
    unknownKeys members = [] ↔ ∀ m ∈ members, m.1 = serverKey := by
  simp [unknownKeys, List.eq_nil_iff_forall_not_mem]

theorem lastValue?_serverKey {members : List (Text × Json)} (h : ∀ m ∈ members, m.1 = serverKey) :
    lastValue? serverKey members = members.getLast?.map (·.2) := by
  rw [lastValue?, List.filter_eq_self.mpr]
  exact fun m hm => decide_eq_true (h m hm)

/-- An object denotes a configuration when its keys are known and the last value is a boolean. -/
theorem denotedBy_object_iff {members : List (Text × Json)} {config : Config} :
    DenotedBy (.object members) config ↔ (∀ m ∈ members, m.1 = serverKey) ∧ ∃ isServer,
      members.getLast?.map (·.2) = some (.bool isServer) ∧ config = .options isServer := by
  constructor
  · rintro (_ | ⟨hOthers, isServer⟩)
    refine ⟨List.forall_mem_append.mpr ⟨hOthers, List.forall_mem_singleton.mpr rfl⟩, isServer, ?_,
      rfl⟩
    rw [List.getLast?_append]
    rfl
  · rintro ⟨hKeys, isServer, hLast, rfl⟩
    obtain ⟨⟨key, value⟩, hLast, hValue⟩ := Option.map_eq_some_iff.mp hLast
    obtain ⟨others, rfl⟩ := List.getLast?_eq_some_iff.mp hLast
    obtain ⟨hOthers, hKey⟩ := List.forall_mem_append.mp hKeys
    cases hValue
    cases List.forall_mem_singleton.mp hKey
    exact .options hOthers isServer

/-- A value is taken for the configuration that it denotes, and for no other. -/
theorem ofJson_eq_ok_iff {j : Json} {config : Config} :
    ofJson j = .ok config ↔ DenotedBy j config := by
  cases j with
  | null => exact ⟨nofun, nofun⟩
  | number _ => exact ⟨nofun, nofun⟩
  | string _ => exact ⟨nofun, nofun⟩
  | array _ => exact ⟨nofun, nofun⟩
  | bool on =>
    constructor
    · rintro ⟨⟩
      exact .all on
    · rintro ⟨⟩
      rfl
  | object members =>
    rw [denotedBy_object_iff, ← unknownKeys_eq_nil_iff, ofJson]
    split
    · next hKeys =>
      rw [lastValue?_serverKey (unknownKeys_eq_nil_iff.mp hKeys)]
      split
      · next isServer hLast => simp [hKeys, hLast, eq_comm]
      · next hLast =>
        refine ⟨nofun, ?_⟩
        rintro ⟨-, isServer, h, -⟩
        exact absurd h (hLast isServer)
    · next hKeys => exact ⟨nofun, fun h => absurd h.1 hKeys⟩

-- ---------------------------------------------------------------------------------------------
-- Files
-- ---------------------------------------------------------------------------------------------

theorem ofFile?_toUTF8 (s : String) : Text.ofFile? s.toUTF8 = some (Text.unifyBreaks s) := by
  rw [Text.ofFile?, Text.decode?_eq_some_iff.mpr ⟨s, rfl, rfl⟩]
  rfl

theorem ofBytes_of_not_encoded (path : Path) {bytes : ByteArray}
    (h : ∀ s : String, bytes ≠ s.toUTF8) : ofBytes path bytes = .error .notUtf8 := by
  rw [ofBytes, Text.ofFile?, Text.decode?_eq_none_iff.mpr h]
  rfl

section

variable {path : Path} {s : String}

theorem ofBytes_ne_notUtf8 : ofBytes path s.toUTF8 ≠ .error .notUtf8 := by
  rw [ofBytes, ofFile?_toUTF8]
  dsimp only
  split
  · nofun
  · nofun
  · next value _ => cases ofJson value <;> nofun

theorem ofBytes_eq_tooManyDigits_iff :
    ofBytes path s.toUTF8 = .error .tooManyDigits ↔ Json.MeetsLongInteger s := by
  rw [← Json.meetsLongInteger_unifyBreaks_iff, ← Json.parse_eq_tooManyDigits_iff, ofBytes,
    ofFile?_toUTF8]
  dsimp only
  split
  · next h => simp [h]
  · next h => simp [h]
  · next value h =>
    rw [h]
    cases ofJson value <;> exact ⟨nofun, nofun⟩

theorem ofBytes_eq_ok_iff {config : Config} : ofBytes path s.toUTF8 = .ok config ↔
    ¬ Json.MeetsLongInteger s ∧ ∃ j, Json.IsText s j ∧ DenotedBy j config := by
  have hParse : ofBytes path s.toUTF8 = .ok config ↔
      ∃ j, Json.parse (Text.unifyBreaks s) = .ok j ∧ ofJson j = .ok config := by
    rw [ofBytes, ofFile?_toUTF8]
    dsimp only
    split
    · next h => simp [h]
    · next h => simp [h]
    · next value h =>
      rw [h]
      cases hValue : ofJson value <;> simp [hValue, Except.mapError]
  simp only [hParse, Json.parse_eq_ok_iff, Json.isText_unifyBreaks_iff,
    Json.meetsLongInteger_unifyBreaks_iff, ofJson_eq_ok_iff]
  grind

/-- There is no other outcome than a configuration, an error in it, and the two exceptions. -/
theorem exists_config_error_iff {x : Except ConfigFailure Config} :
    (∃ error, x = .error (.config error)) ↔
      x ≠ .error .notUtf8 ∧ x ≠ .error .tooManyDigits ∧ ∀ config, x ≠ .ok config := by
  rcases x with (error | _ | _) | config <;> simp

theorem exists_ofBytes_error_iff : (∃ error, ofBytes path s.toUTF8 = .error (.config error)) ↔
    ¬ Json.MeetsLongInteger s ∧ ∀ j config, Json.IsText s j → ¬ DenotedBy j config := by
  rw [exists_config_error_iff]
  simp only [ne_eq, ofBytes_eq_tooManyDigits_iff, ofBytes_eq_ok_iff, ofBytes_ne_notUtf8,
    not_false_eq_true, true_and]
  grind

theorem exists_toUTF8_iff {P : String → Prop} : (∃ s', s.toUTF8 = s'.toUTF8 ∧ P s') ↔ P s := by
  constructor
  · rintro ⟨s', hBytes, h⟩
    rwa [String.toByteArray_inj.mp hBytes]
  · exact fun h => ⟨s, rfl, h⟩

end

/-- The configuration in what reading a file gives. -/
def ofRead (path : Path) : Except DiskFault ByteArray → Except ConfigFailure Config
  | .error fault => .error (.config (.unreadable path fault))
  | .ok bytes => ofBytes path bytes

theorem load_eq {m : Type → Type} [Monad m] [MonadDisk m] (path : Path) :
    Config.load (m := m) path = (do return ofRead path (← MonadDisk.read path)) := by
  rw [load]
  congr
  funext x
  cases x with
  | error fault => rfl
  | ok bytes => rfl

/-- What comes of loading a configuration hangs on what is read from the file. A fault of the disk is a
configuration error. Of bytes, those of a JSON text that denotes a configuration give it, and all others
are configuration errors, unless they are not UTF-8 or meet an integer with too many digits. -/
theorem load_outcomes {m : Type → Type} [Monad m] [MonadDisk m] (path : Path) :
    ∃ outcome : Except DiskFault ByteArray → Except ConfigFailure Config,
      Config.load (m := m) path = (do return outcome (← MonadDisk.read path)) ∧
      (∀ fault, outcome (.error fault) = .error (.config (.unreadable path fault))) ∧
      ∀ bytes,
        (∀ config, outcome (.ok bytes) = .ok config ↔ ∃ s : String, bytes = s.toUTF8 ∧
          ¬ Json.MeetsLongInteger s ∧ ∃ j, Json.IsText s j ∧ DenotedBy j config) ∧
        (outcome (.ok bytes) = .error .notUtf8 ↔ ∀ s : String, bytes ≠ s.toUTF8) ∧
        (outcome (.ok bytes) = .error .tooManyDigits ↔
          ∃ s : String, bytes = s.toUTF8 ∧ Json.MeetsLongInteger s) ∧
        ((∃ error, outcome (.ok bytes) = .error (.config error)) ↔ ∃ s : String, bytes = s.toUTF8 ∧
          ¬ Json.MeetsLongInteger s ∧ ∀ j config, Json.IsText s j → ¬ DenotedBy j config) := by
  refine ⟨ofRead path, load_eq path, fun fault => rfl, fun bytes => ?_⟩
  simp only [ofRead]
  by_cases hEncoded : ∃ s : String, bytes = s.toUTF8
  · obtain ⟨s, rfl⟩ := hEncoded
    simp only [exists_toUTF8_iff, ofBytes_eq_ok_iff, ofBytes_eq_tooManyDigits_iff,
      exists_ofBytes_error_iff, implies_true, true_and, and_true]
    exact iff_of_false ofBytes_ne_notUtf8 fun h => h s rfl
  · have hBytes : ∀ s : String, bytes ≠ s.toUTF8 := fun s hs => hEncoded ⟨s, hs⟩
    simp [ofBytes_of_not_encoded path hBytes, hBytes, -String.toUTF8_eq_toByteArray]

theorem meetsLongInteger_ones {n : Nat} (h : Json.Reader.maxDigits < n) :
    Json.MeetsLongInteger (String.ofList (List.replicate n '1')) := by
  have hOnes : Text.ofString (String.ofList (List.replicate n '1')) =
      List.replicate n (.char '1') := by
    rw [Text.ofString, String.toList_ofList, List.map_replicate]
  have hn : n ≠ 0 := by omega
  have hWhole : Json.IsWhole (List.replicate n (.char '1')) := by
    refine .digits ⟨by simpa using hn, fun p hp => ?_⟩ ?_
    · rw [List.eq_of_mem_replicate hp]
      decide
    · rw [List.head?_replicate, if_neg hn]
      decide
  rw [hOnes]
  refine ⟨_, ⟨[], List.forall_mem_nil _, rfl⟩, .here ⟨[], _, [], .inl rfl, hWhole, ?_, ?_, ?_⟩⟩
  · rwa [List.length_replicate]
  · exact Json.Reader.not_continues_iff.mpr
      ⟨fun _ hp => absurd hp (Option.not_mem_none _), rfl, rfl⟩
  · rw [List.nil_append, List.append_nil]

/-- A byte that is in no text, and an integer of 4301 digits, fail to load but not by an error in the
configuration. -/
theorem load_outcomes_beyond_errors :
    let disk (bytes : ByteArray) : Disk := { nodes := [(["rsc.json"], .file bytes)] }
    let long := (String.ofList (List.replicate 4301 '1')).toUTF8
    (Config.load (m := StateM Disk) ⟨.working, ["rsc.json"]⟩).run (disk ⟨#[0xff]⟩) =
        (.error .notUtf8, disk ⟨#[0xff]⟩) ∧
      (Config.load (m := StateM Disk) ⟨.working, ["rsc.json"]⟩).run (disk long) =
        (.error .tooManyDigits, disk long) := by
  intro disk long
  obtain ⟨outcome, hLoad, -, hBytes⟩ := load_outcomes (m := StateM Disk) ⟨.working, ["rsc.json"]⟩
  have hRun (bytes : ByteArray) : (Config.load (m := StateM Disk) ⟨.working, ["rsc.json"]⟩).run
      (disk bytes) = (outcome (.ok bytes), disk bytes) := by
    rw [hLoad]
    rfl
  have hByte : ¬ (⟨#[0xff]⟩ : ByteArray).IsValidUTF8 := by decide +kernel
  have hLong := meetsLongInteger_ones (by decide : Json.Reader.maxDigits < 4301)
  rw [hRun, hRun, (hBytes _).2.1.mpr, (hBytes _).2.2.1.mpr ⟨_, rfl, hLong⟩]
  · exact ⟨rfl, rfl⟩
  · intro s hs
    rw [hs] at hByte
    exact hByte s.isValidUTF8

end Config

end ClientBoundary
