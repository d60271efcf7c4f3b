import ChipEight.Rom.Listing
import ChipEight.Proofs.Utf8

/-!
# Listing the programs of a folder

A folder delivers its members in any order, and a listing tells those of them that are files with
the name of a program. The names come in the order of their bytes, so that the list is the same
whatever the order of delivery is. Whether a member is a file is what the file system answers for
its path.

A name is text here, but a file system keeps bytes, and not all sequences of bytes are text. So the
listing is also given for names of any bytes, by other means: a program is told by the extension of
its name, which stands behind the last dot, and whole paths are sorted, name by name. Both listings
obey the same law (`Lists`), and for names that are text they agree (`rawPaths_raw`). The first is
sorted by characters; this is the order of the bytes because UTF-8 keeps the order.

* `Lists` : the law of listing;
* `lists_mergeSort` : names that are sorted by their bytes obey it;
* `isRomName_iff` : the name of a program is something with `.ch8` behind it;
* `RawEntry`, `RawName.extension?`, `rawPaths` : the listing for names of any bytes;
* `RawName.isRom_iff`, `isRom_utf8_iff` : the same names are those of programs for both listings;
* `romPaths_exact` : the result.
-/

namespace ChipEight

/-- The name of a program: something, and the suffix behind it. -/
def IsRomName (name : String) : Prop := ∃ stem, stem ≠ "" ∧ name = stem ++ ".ch8"

/-- The law of listing a folder that delivers `entries`, where `isRom` tells the names of the
programs among them, and names have bytes and paths. -/
structure Lists {ε ν π : Type} (list : List ε → List π) (entries : List ε) (isRom : ν → Prop)
    (bytes : ν → List UInt8) (path : ν → π) : Prop where
  /-- The paths of programs are listed, and no other ones. -/
  mem_iff : ∀ p, p ∈ list entries ↔ ∃ name, isRom name ∧ path name = p
  /-- The names ascend strictly, byte by byte. -/
  ascending : ∃ names : List ν, list entries = names.map path ∧
    names.Pairwise fun a b => bytes a < bytes b
  /-- No path is listed twice. -/
  nodup : (list entries).Nodup
  /-- In any other order of delivery the list is the same. -/
  order_free : ∀ delivered, entries.Perm delivered → list delivered = list entries

/-! ### Sorting by bytes -/

section

variable {ε ν π : Type} {bytes : ν → List UInt8} {path : ν → π} {le : ν → ν → Bool}

theorem pairwise_mergeSort (hle : ∀ a b, le a b = true ↔ ¬ bytes b < bytes a) (names : List ν) :
    (names.mergeSort le).Pairwise fun a b => ¬ bytes b < bytes a := by
  refine (List.pairwise_mergeSort (fun a b c hab hbc => ?_) (fun a b => ?_) names).imp
    fun hab => (hle _ _).1 hab
  · exact (hle a c).2 (List.le_trans ((hle a b).1 hab) ((hle b c).1 hbc))
  · rw [Bool.or_eq_true, hle, hle]
    exact List.le_total (bytes a) (bytes b)

/-- Sorting by bytes forgets the order that names come in. -/
theorem mergeSort_eq_of_perm (hbytes : ∀ a b, bytes a = bytes b → a = b)
    (hle : ∀ a b, le a b = true ↔ ¬ bytes b < bytes a) {names others : List ν}
    (h : names.Perm others) : names.mergeSort le = others.mergeSort le := by
  have hperm : (names.mergeSort le).Perm (others.mergeSort le) :=
    (names.mergeSort_perm le).trans (h.trans (others.mergeSort_perm le).symm)
  refine hperm.eq_of_pairwise (fun a b _ _ hab hba => ?_) (pairwise_mergeSort hle names)
    (pairwise_mergeSort hle others)
  exact hbytes a b (List.le_antisymm hab hba)

/-- A listing that picks some entries, sorts their names by bytes and makes paths of them obeys the
law if no two entries have the same name. -/
theorem lists_mergeSort {list : List ε → List π} {name : ε → ν} {pick : ε → Bool}
    {isRom : ν → Prop} {entries : List ε}
    (hlist : ∀ es, list es = (((es.filter pick).map name).mergeSort le).map path)
    (hbytes : ∀ a b, bytes a = bytes b → a = b) (hpath : ∀ a b, path a = path b → a = b)
    (hle : ∀ a b, le a b = true ↔ ¬ bytes b < bytes a)
    (hrom : ∀ n, (∃ e ∈ entries, pick e = true ∧ name e = n) ↔ isRom n)
    (h : (entries.map name).Nodup) : Lists list entries isRom bytes path := by
  have hperm := ((entries.filter pick).map name).mergeSort_perm le
  have hnodup : (((entries.filter pick).map name).mergeSort le).Nodup :=
    hperm.nodup_iff.2 (h.sublist (List.filter_sublist.map name))
  constructor
  case mem_iff =>
    intro p
    rw [hlist, List.mem_map]
    refine exists_congr fun n => and_congr_left fun _ => ?_
    rw [hperm.mem_iff, List.mem_map, ← hrom]
    simp only [List.mem_filter, and_assoc]
  case ascending =>
    -- no name comes twice, so sorted names ascend strictly
    refine ⟨_, hlist entries, ((pairwise_mergeSort hle _).and hnodup).imp fun hab => ?_⟩
    exact Decidable.byContradiction fun hlt => hab.2 (hbytes _ _ (List.le_antisymm hab.1 hlt))
  case nodup =>
    rw [hlist]
    exact List.pairwise_map.2 (hnodup.imp fun hne heq => hne (hpath _ _ heq))
  case order_free =>
    intro delivered hd
    rw [hlist, hlist, mergeSort_eq_of_perm hbytes hle ((hd.filter pick).map name).symm]

end

/-! ### Names in characters -/

theorem isRomName_iff {name : String} : isRomName name = true ↔ IsRomName name := by
  have hsuffix : ".ch8".toList = romSuffix := rfl
  rw [isRomName, Bool.and_eq_true, List.isSuffixOf_iff_suffix, decide_eq_true_eq]
  constructor
  · rintro ⟨⟨stem, hstem⟩, hlt⟩
    refine ⟨String.ofList stem, fun h => ?_, ?_⟩
    · have hnil : stem = [] := by simpa using congrArg String.toList h
      rw [← String.length_toList, ← hstem, hnil] at hlt
      exact Nat.lt_irrefl _ hlt
    · rw [← String.toList_inj, String.toList_append, String.toList_ofList, hsuffix, hstem]
  · rintro ⟨stem, hne, rfl⟩
    refine ⟨⟨stem.toList, by rw [String.toList_append, hsuffix]⟩, ?_⟩
    have hpos : 0 < stem.length := Nat.pos_of_ne_zero fun h => hne (by simpa using h)
    rw [String.length_append]
    exact Nat.lt_add_of_pos_left hpos

/-- Texts are sorted by their bytes. -/
theorem decide_le_iff (a b : String) : decide (a ≤ b) = true ↔ ¬ utf8 b < utf8 a := by
  rw [decide_eq_true_eq, utf8_lt_iff, String.not_lt]

theorem isRomEntry_iff {entries : List FolderEntry} {name : String} :
    (∃ e ∈ entries, (e.isFile && isRomName e.name) = true ∧ e.name = name) ↔
      ⟨name, true⟩ ∈ entries ∧ IsRomName name := by
  constructor
  · rintro ⟨⟨name, isFile⟩, he, hpick, rfl⟩
    obtain ⟨rfl, hrom⟩ : isFile = true ∧ isRomName name = true := by simpa using hpick
    exact ⟨he, isRomName_iff.1 hrom⟩
  · rintro ⟨he, hrom⟩
    exact ⟨_, he, isRomName_iff.2 hrom, rfl⟩

/-! ### Names in bytes -/

/-- A member of a folder, with a name of any bytes. -/
structure RawEntry where
  /-- The name within the folder. -/
  name : List UInt8
  /-- Whether it is a file that can be read, and not a folder. -/
  isFile : Bool
deriving DecidableEq, Repr

/-- The bytes of an entry. -/
def FolderEntry.raw (e : FolderEntry) : RawEntry := ⟨utf8 e.name, e.isFile⟩

namespace RawName

/-- The byte of a dot. -/
def dot : UInt8 := 0x2E

/-- What stands before and behind the last dot of a name. -/
def aroundLastDot? : List UInt8 → Option (List UInt8 × List UInt8)
  | [] => none
  | b :: rest =>
    match aroundLastDot? rest with
    | some (stem, ext) => some (b :: stem, ext)
    | none => if b = dot then some ([], rest) else none

/-- The extension of a name: what stands behind its last dot, if something stands before it. Two
dots name the folder above and have no extension. -/
def extension? (name : List UInt8) : Option (List UInt8) :=
  if name = [dot, dot] then none
  else
    match aroundLastDot? name with
    | some (_ :: _, ext) => some ext
    | _ => none

/-- The name of a program. -/
def IsRom (name : List UInt8) : Prop := ∃ stem, stem ≠ [] ∧ name = stem ++ utf8 ".ch8"

variable {name stem ext : List UInt8}

theorem aroundLastDot?_eq_none_iff : aroundLastDot? name = none ↔ dot ∉ name := by
  induction name with
  | nil => simp [aroundLastDot?]
  | cons b rest ih =>
    rw [aroundLastDot?, List.mem_cons, not_or]
    cases h : aroundLastDot? rest with
    | some parts => exact iff_of_false (by simp) fun hb => by simp [ih.2 hb.2] at h
    | none =>
      by_cases hb : b = dot
      · simp [hb]
      · simp [hb, Ne.symm hb, ih.1 h]

theorem aroundLastDot?_of_append (h : dot ∉ ext) (stem : List UInt8) :
    aroundLastDot? (stem ++ dot :: ext) = some (stem, ext) := by
  induction stem with
  | nil => rw [List.nil_append, aroundLastDot?, aroundLastDot?_eq_none_iff.2 h, if_pos rfl]
  | cons b stem ih => rw [List.cons_append, aroundLastDot?, ih]

theorem eq_append_of_aroundLastDot? (h : aroundLastDot? name = some (stem, ext)) :
    name = stem ++ dot :: ext := by
  induction name generalizing stem with
  | nil => cases h
  | cons b rest ih =>
    rw [aroundLastDot?] at h
    cases hrest : aroundLastDot? rest with
    | some parts =>
      obtain ⟨stem', ext'⟩ := parts
      rw [hrest] at h
      obtain ⟨rfl, rfl⟩ : b :: stem' = stem ∧ ext' = ext := by simpa using h
      rw [ih hrest, List.cons_append]
    | none =>
      rw [hrest] at h
      by_cases hb : b = dot
      · obtain ⟨rfl, rfl⟩ : [] = stem ∧ rest = ext := by simpa [hb] using h
        rw [hb, List.nil_append]
      · simp [hb] at h

theorem extension?_eq_some_iff (hext : ext ≠ []) (hdot : dot ∉ ext) :
    extension? name = some ext ↔ ∃ stem, stem ≠ [] ∧ name = stem ++ dot :: ext := by
  unfold extension?
  constructor
  · intro h
    split at h
    · cases h
    · split at h
      next b stem ext' hparts =>
        obtain rfl : ext' = ext := by simpa using h
        exact ⟨b :: stem, List.cons_ne_nil _ _, eq_append_of_aroundLastDot? hparts⟩
      next => cases h
  · rintro ⟨stem, hstem, rfl⟩
    have hdots : stem ++ dot :: ext ≠ [dot, dot] := by
      intro h
      have hlen : stem.length + (ext.length + 1) = 2 := by simpa using congrArg List.length h
      have := List.length_pos_iff.2 hstem
      have := List.length_pos_iff.2 hext
      omega
    rw [if_neg hdots, aroundLastDot?_of_append hdot]
    cases stem with
    | nil => exact absurd rfl hstem
    | cons b stem => rfl

theorem isRom_iff : extension? name = some (utf8 "ch8") ↔ IsRom name :=
  extension?_eq_some_iff (by decide) (by decide)

end RawName

/-- The bytes before the suffix of a text are those of a text again. -/
theorem isRom_utf8_iff {name : String} : RawName.IsRom (utf8 name) ↔ IsRomName name := by
  have hplain : ∀ a ∈ ".ch8".toList, a.toNat ≤ 0x7F := by simp
  constructor
  · rintro ⟨stem, hne, h⟩
    rw [utf8_eq_bytes, utf8_eq_bytes] at h
    obtain ⟨ds, hds, rfl⟩ := Utf8.exists_eq_append_of_bytes hplain h
    refine ⟨String.ofList ds, fun h => hne ?_, ?_⟩
    · have hnil : ds = [] := by simpa using congrArg String.toList h
      rw [hnil]
      rfl
    · rw [← String.toList_inj, String.toList_append, String.toList_ofList, hds]
  · rintro ⟨stem, hne, rfl⟩
    exact ⟨utf8 stem, fun h => hne (utf8_injective h), utf8_append stem ".ch8"⟩

/-- The programs among the members of a folder. -/
def rawNames (entries : List RawEntry) : List (List UInt8) :=
  (entries.filter fun e => e.isFile && RawName.extension? e.name == some (utf8 "ch8")).map (·.name)

/-- The paths of the programs among the members of a folder, in ascending order. A path is given by
the names on it; paths are compared name by name, and names byte by byte. -/
def rawPaths (folder : List (List UInt8)) (entries : List RawEntry) : List (List (List UInt8)) :=
  ((rawNames entries).map fun name => folder ++ [name]).mergeSort fun a b => a ≤ b

theorem isRomRaw_iff {entries : List RawEntry} {name : List UInt8} :
    (∃ e ∈ entries, (e.isFile && RawName.extension? e.name == some (utf8 "ch8")) = true ∧
      e.name = name) ↔ ⟨name, true⟩ ∈ entries ∧ RawName.IsRom name := by
  constructor
  · rintro ⟨⟨name, isFile⟩, he, hpick, rfl⟩
    obtain ⟨rfl, hrom⟩ : isFile = true ∧ RawName.extension? name = some (utf8 "ch8") := by
      simpa using hpick
    exact ⟨he, RawName.isRom_iff.1 hrom⟩
  · rintro ⟨he, hrom⟩
    exact ⟨_, he, by simp [RawName.isRom_iff.2 hrom], rfl⟩

theorem concat_lt_concat_iff (folder : List (List UInt8)) (a b : List UInt8) :
    folder ++ [a] < folder ++ [b] ↔ a < b := by
  induction folder with
  | nil => simp [List.cons_lt_cons_iff]
  | cons name folder ih => simpa [List.cons_lt_cons_iff, List.lt_irrefl] using ih

theorem rawPaths_eq (folder : List (List UInt8)) (entries : List RawEntry) :
    rawPaths folder entries =
      ((rawNames entries).mergeSort fun a b => a ≤ b).map fun name => folder ++ [name] := by
  -- the folder is the same in front of all names
  refine (List.map_mergeSort fun a _ b _ => ?_).symm
  rw [decide_eq_decide, ← List.not_lt, ← List.not_lt, concat_lt_concat_iff]

theorem extension?_utf8 (name : String) :
    (RawName.extension? (utf8 name) == some (utf8 "ch8")) = isRomName name := by
  rw [Bool.eq_iff_iff, beq_iff_eq, RawName.isRom_iff, isRom_utf8_iff, isRomName_iff]

theorem rawNames_raw (entries : List FolderEntry) :
    rawNames (entries.map FolderEntry.raw) =
      ((entries.filter fun e => e.isFile && isRomName e.name).map (·.name)).map utf8 := by
  have hpick : (fun e : RawEntry => e.isFile && RawName.extension? e.name == some (utf8 "ch8")) ∘
      FolderEntry.raw = fun e => e.isFile && isRomName e.name :=
    funext fun e => congrArg (e.isFile && ·) (extension?_utf8 e.name)
  rw [rawNames, List.filter_map, hpick, List.map_map, List.map_map]
  rfl

/-- For names that are text, both listings tell the same programs in the same order. -/
theorem rawPaths_raw (folder : List (List UInt8)) (entries : List FolderEntry) :
    rawPaths folder (entries.map FolderEntry.raw) =
      (romNames entries).map fun name => folder ++ [utf8 name] := by
  have hsort : (romNames entries).map utf8 =
      (rawNames (entries.map FolderEntry.raw)).mergeSort fun a b => a ≤ b := by
    rw [rawNames_raw]
    refine List.map_mergeSort fun a _ b _ => ?_
    rw [decide_eq_decide, ← List.not_lt, utf8_lt_iff, String.not_lt]
  rw [rawPaths_eq, ← hsort, List.map_map]
  rfl

/-- **Listing is exact.** Of a folder that delivers each of its members once, exactly those are
listed that are files with something and `.ch8` behind it for a name. Each is listed by its path in
the folder, once and in the order of the bytes of the names, and the order in which the members are
delivered does not matter. The same holds for names that are not text, where a program is told by
its extension and whole paths are sorted, and where names are text both listings agree. -/
theorem romPaths_exact (folder : String) {entries : List FolderEntry}
    (hentries : (entries.map (·.name)).Nodup) (place : List (List UInt8)) {raw : List RawEntry}
    (hraw : (raw.map (·.name)).Nodup) :
    Lists (romPaths folder) entries (fun name => ⟨name, true⟩ ∈ entries ∧ IsRomName name) utf8
        (Path.join folder) ∧
      Lists (rawPaths place) raw (fun name => ⟨name, true⟩ ∈ raw ∧ RawName.IsRom name) id
        (fun name => place ++ [name]) ∧
      rawPaths place (entries.map FolderEntry.raw) =
        (romNames entries).map fun name => place ++ [utf8 name] := by
  refine ⟨?_, ?_, rawPaths_raw place entries⟩
  · exact lists_mergeSort (fun _ => rfl) (fun _ _ => utf8_injective)
      (fun _ _ => Path.join_injective) decide_le_iff (fun _ => isRomEntry_iff) hentries
  · refine lists_mergeSort (rawPaths_eq place) (fun _ _ h => h) (fun a b h => ?_) (fun a b => ?_)
      (fun _ => isRomRaw_iff) hraw
    · exact List.singleton_inj.1 (List.append_cancel_left h)
    · rw [decide_eq_true_eq]
      exact List.not_lt.symm

/-- Names that are almost those of programs, and one that is not text. -/
theorem romPaths_exact_of_lookalikes :
    let entries : List FolderEntry :=
      [⟨"..ch8", true⟩, ⟨".ch8", true⟩, ⟨"b.ch8", true⟩, ⟨"sub.ch8", false⟩, ⟨"é.ch8", true⟩]
    let raw : List RawEntry := [⟨0xFF :: utf8 ".ch8", true⟩, ⟨utf8 ".ch8", true⟩]
    (entries.map (·.name)).Nodup ∧ (raw.map (·.name)).Nodup ∧
      romPaths "roms" entries.reverse = ["roms/..ch8", "roms/b.ch8", "roms/é.ch8"] ∧
      [utf8 "roms", 0xFF :: utf8 ".ch8"] ∈ rawPaths [utf8 "roms"] raw ∧
      [utf8 "roms", utf8 ".ch8"] ∉ rawPaths [utf8 "roms"] raw := by
  intro entries raw
  have hentries : (entries.map (·.name)).Nodup := by decide
  have hraw : (raw.map (·.name)).Nodup := by decide
  obtain ⟨hnames, hbytes, -⟩ := romPaths_exact "roms" hentries [utf8 "roms"] hraw
  refine ⟨hentries, hraw, ?_, ?_, ?_⟩
  · have hpicked : (entries.filter fun e => e.isFile && isRomName e.name).map (·.name) =
        ["..ch8", "b.ch8", "é.ch8"] := by decide +kernel
    rw [hnames.order_free _ entries.reverse_perm.symm, romPaths, romNames, hpicked,
      List.mergeSort_of_pairwise (by decide +kernel)]
    decide +kernel
  · exact (hbytes.mem_iff _).2 ⟨_, ⟨by simp [raw], [0xFF], by simp, rfl⟩, rfl⟩
  · rw [hbytes.mem_iff]
    rintro ⟨name, ⟨-, stem, hstem, rfl⟩, hpath⟩
    have hname : stem ++ utf8 ".ch8" = utf8 ".ch8" :=
      List.singleton_inj.1 (List.append_cancel_left hpath)
    exact hstem (List.append_left_eq_self.1 hname)

end ChipEight
