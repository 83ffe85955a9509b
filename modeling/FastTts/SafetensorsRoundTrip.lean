import FastTts.SafetensorsHeader

/-!
# Written files that are read again

The reader finds what the writer was given just where no name and no dtype has a control character,
no tensor has the name of the metadata, and all bytes together have an `int64_t` for their number.
-/

namespace FastTts.Safetensors

open JsonText (joined)

/-! ## The checks of the writer -/

/-- What the writer asks of its tensors. -/
structure Accepted (names : List Bytes) (entries : List SafeTensorWriteEntry) : Prop where
  named : ∀ entry ∈ entries, entry.name ≠ [] ∧ entry.dtype ≠ []
  fresh : ∀ entry ∈ entries, entry.name ∉ names
  distinct : (entries.map (·.name)).Nodup
  shapes : ∀ entry ∈ entries, ∀ dim ∈ entry.shape, 0 ≤ dim

variable {entries : List SafeTensorWriteEntry} {path file : Bytes} {opened : Bool}
  {member : SafeTensorWriteEntry × ℕ × ℕ} {index : SafeTensorIndex}

theorem accepted_of_checkEntries {names : List Bytes} (h : checkEntries names entries = .ok ()) :
    Accepted names entries := by
  induction entries generalizing names with
  | nil => exact ⟨by simp, by simp, by simp, by simp⟩
  | cons entry entries ih =>
    unfold checkEntries at h
    split_ifs at h with hnamed hfresh hshape
    obtain ⟨named, fresh, distinct, shapes⟩ := ih h
    push Not at hnamed hshape
    refine ⟨?_, ?_, ?_, ?_⟩
    · rintro other (_ | ⟨_, hother⟩)
      · exact hnamed
      · exact named other hother
    · rintro other (_ | ⟨_, hother⟩)
      · exact hfresh
      · exact fun hmem => fresh other hother (List.mem_cons_of_mem _ hmem)
    · refine List.nodup_cons.mpr ⟨fun hmem => ?_, distinct⟩
      obtain ⟨other, hother, hname⟩ := List.mem_map.mp hmem
      exact fresh other hother (hname ▸ List.mem_cons_self)
    · rintro other (_ | ⟨_, hother⟩)
      · exact hshape
      · exact shapes other hother

/-! ## The file -/

theorem length_writeU64Le (value : ℕ) : (writeU64Le value).length = 8 := by
  rw [writeU64Le, List.length_map, List.length_range]

theorem number_writeU64Le {value : ℕ} (h : value < 2 ^ 64) : number (writeU64Le value) = value := by
  have hbyte : ∀ i, (UInt8.ofNat (value >>> (i * 8) &&& 0xFF)).toNat =
      value / 2 ^ (i * 8) % 256 := by
    intro i
    have hand : value >>> (i * 8) &&& 0xFF = value / 2 ^ (i * 8) % 256 := by
      rw [Nat.shiftRight_eq_div_pow]
      exact Nat.and_two_pow_sub_one_eq_mod _ 8
    rw [hand, UInt8.toNat_ofNat', Nat.mod_mod]
  simp only [writeU64Le, number, List.range, List.range.loop, List.map_cons, List.map_nil,
    List.foldr_cons, List.foldr_nil, hbyte]
  omega

theorem writeSafetensorsFile_ok (h : writeSafetensorsFile path opened entries = .ok file) :
    entries ≠ [] ∧ Accepted [] entries ∧ (headerText entries).length < 2 ^ 63 ∧
      file = writeU64Le (headerText entries).length ++ headerText entries ++
        entries.flatMap (·.data) := by
  by_cases hne : entries = []
  · rw [writeSafetensorsFile, if_pos hne] at h
    cases h
  · rw [writeSafetensorsFile, if_neg hne] at h
    obtain ⟨_, hcheck, hrest⟩ := except_bind_ok h
    dsimp only at hrest
    split_ifs at hrest with hlength
    cases hrest
    exact ⟨hne, accepted_of_checkEntries hcheck, Nat.not_le.mp hlength, rfl⟩

theorem length_offsetsFrom (cursor : ℕ) (entries : List SafeTensorWriteEntry) :
    (offsetsFrom cursor entries).length = entries.length := by
  induction entries generalizing cursor with
  | nil => rfl
  | cons entry entries ih => rw [offsetsFrom, List.length_cons, List.length_cons, ih]

theorem members_fst (entries : List SafeTensorWriteEntry) :
    (members entries).map Prod.fst = entries :=
  List.map_fst_zip (length_offsetsFrom 0 entries).ge

theorem memberText_ne_nil (member : SafeTensorWriteEntry × ℕ × ℕ) : memberText member ≠ [] := by
  have h := memberText_append member []
  rw [List.append_nil] at h
  rw [h]
  exact List.cons_ne_nil _ _

theorem braces (inner blanks : Bytes) :
    bytes "\x7b" ++ inner ++ bytes "\x7d" ++ blanks = 0x7B :: (inner ++ 0x7D :: blanks) := by
  rw [List.append_assoc, List.append_assoc]
  rfl

theorem loadHeader_written (hne : entries ≠ []) (h : Accepted [] entries) :
    loadHeader (headerText entries) =
      (members entries).foldlM loadMember ⟨[], [], 8 + (headerText entries).length⟩ := by
  have hmembers : members entries ≠ [] := fun hnil =>
    hne (by rw [← members_fst entries, hnil, List.map_nil])
  have hshape : ∀ member ∈ members entries, ∀ dim ∈ member.1.shape, 0 ≤ dim := by
    intro member hmember
    refine h.shapes member.1 ?_
    rw [← members_fst entries]
    exact List.mem_map_of_mem hmember
  have hlength := JsonText.length_le_joined ((members entries).map memberText) (by
    intro text htext
    obtain ⟨member, -, rfl⟩ := List.mem_map.mp htext
    exact memberText_ne_nil member)
  rw [List.length_map] at hlength
  generalize hheader : headerText entries = header
  have htext : ∃ blanks, header =
      0x7B :: (joined ((members entries).map memberText) ++ 0x7D :: blanks) := by
    rw [← hheader, headerText]
    exact ⟨_, braces _ _⟩
  obtain ⟨blanks, htext⟩ := htext
  rw [loadHeader]
  nth_rewrite 1 [htext]
  rw [expectChar_self 0x7B rfl]
  refine loadMembers_written hmembers hshape ?_ _ blanks
  rw [List.length_append]
  omega

theorem load_written (h : writeSafetensorsFile path opened entries = .ok file) :
    loadSafetensorsIndex path (some file) =
      (members entries).foldlM loadMember ⟨[], [], 8 + (headerText entries).length⟩ := by
  obtain ⟨hne, haccepted, hlength, rfl⟩ := writeSafetensorsFile_ok h
  have hfirst := length_writeU64Le (headerText entries).length
  have htake : (writeU64Le (headerText entries).length ++ headerText entries ++
      entries.flatMap (·.data)).take 8 = writeU64Le (headerText entries).length := by
    rw [List.append_assoc, List.take_append_of_le_length hfirst.ge, ← hfirst, List.take_length]
  have hdrop : ((writeU64Le (headerText entries).length ++ headerText entries ++
      entries.flatMap (·.data)).drop 8).take (headerText entries).length = headerText entries := by
    rw [List.append_assoc, List.drop_append_of_le_length hfirst.ge, ← hfirst, List.drop_length,
      List.nil_append, List.take_left]
  have hnumber := number_writeU64Le (Nat.lt_trans hlength (by norm_num))
  rw [loadSafetensorsIndex, ← loadHeader_written hne haccepted]
  simp only [htake, hnumber, hdrop]
  rw [if_neg, if_neg (Nat.not_le.mpr hlength), if_neg]
  · simp only [List.length_append, hfirst]
    omega
  · simp only [List.length_append, hfirst]
    omega

/-! ## One tensor -/

def readInfo (member : SafeTensorWriteEntry × ℕ × ℕ) : SafeTensorInfo :=
  ⟨readBack member.1.name, readBack member.1.dtype, member.1.shape, member.2.1, member.2.2⟩

theorem infoOf_ok_iff {info : SafeTensorInfo} :
    infoOf member = .ok info ↔
      (member.2.1 ≤ member.2.2 ∧ member.2.2 < 2 ^ 63) ∧ info = readInfo member := by
  obtain ⟨entry, first, last⟩ := member
  dsimp only [infoOf, readInfo]
  constructor
  · intro h
    obtain ⟨offsets, hoffsets, hinfo⟩ := except_bind_ok h
    rw [List.mapM_cons] at hoffsets
    obtain ⟨value, hvalue, hoffsets⟩ := except_bind_ok hoffsets
    rw [List.mapM_cons] at hoffsets
    obtain ⟨tail, htail, hoffsets⟩ := except_bind_ok hoffsets
    obtain ⟨value', hvalue', htail⟩ := except_bind_ok htail
    cases hoffsets
    cases htail
    unfold int64Of at hvalue hvalue'
    split_ifs at hvalue hvalue' with hfirst hlast
    cases hvalue
    cases hvalue'
    simp only [List.reverse_nil, withOffsets] at hinfo
    split_ifs at hinfo with hneg hle
    cases hinfo
    refine ⟨⟨by omega, hlast⟩, ?_⟩
    simp only [Int.toNat_natCast]
  · rintro ⟨⟨hle, hlast⟩, rfl⟩
    have hoffsets : [first, last].mapM int64Of = .ok ([first, last].map (fun n : ℕ => (n : ℤ))) :=
      mapM_int64Of (by
        intro n hn
        simp only [List.mem_cons, List.not_mem_nil, or_false] at hn
        omega)
    simp only [hoffsets, bind, Except.bind, List.map_cons, List.map_nil, withOffsets]
    rw [if_neg (by omega), if_neg (by omega)]
    simp only [Int.toNat_natCast]

def Taken (member : SafeTensorWriteEntry × ℕ × ℕ) : Prop :=
  readBack member.1.name ≠ metadataKey ∧ member.2.1 ≤ member.2.2 ∧ member.2.2 < 2 ^ 63

variable {next : SafeTensorIndex} {β : Type}

theorem loadMember_ok_iff :
    loadMember index member = .ok next ↔ Taken member ∧ next = ⟨index.metadata,
        emplace index.tensors (readBack member.1.name, readInfo member), index.headerBytes⟩ := by
  unfold loadMember Taken
  split_ifs with hname
  · simp [hname]
  · constructor
    · intro h
      obtain ⟨info, hinfo, hnext⟩ := except_bind_ok h
      obtain ⟨hoffsets, rfl⟩ := infoOf_ok_iff.mp hinfo
      cases hnext
      exact ⟨⟨hname, hoffsets⟩, rfl⟩
    · rintro ⟨⟨-, hoffsets⟩, rfl⟩
      simp only [bind, Except.bind, infoOf_ok_iff.mpr ⟨hoffsets, rfl⟩]
      rfl

/-! ## All tensors -/

theorem mem_emplace {values : List (Bytes × β)} {entry other : Bytes × β}
    (h : other ∈ emplace values entry) : other ∈ values ∨ other = entry := by
  unfold emplace at h
  split_ifs at h with hmem
  · exact .inl h
  · simpa using h

theorem emplace_fresh {values : List (Bytes × β)} {entry : Bytes × β}
    (h : entry.1 ∉ values.map Prod.fst) : emplace values entry = values ++ [entry] := if_neg h

theorem foldlM_loadMember {written : List (SafeTensorWriteEntry × ℕ × ℕ)}
    (h : written.foldlM loadMember index = .ok next) :
    (∀ member ∈ written, Taken member) ∧ ∀ tensor ∈ next.tensors, tensor ∈ index.tensors ∨
      ∃ member ∈ written, tensor = (readBack member.1.name, readInfo member) := by
  induction written generalizing index with
  | nil =>
    cases h
    exact ⟨by simp, fun tensor htensor => .inl htensor⟩
  | cons member written ih =>
    rw [List.foldlM_cons] at h
    obtain ⟨middle, hmiddle, hrest⟩ := except_bind_ok h
    obtain ⟨htaken, rfl⟩ := loadMember_ok_iff.mp hmiddle
    obtain ⟨hall, htensors⟩ := ih hrest
    refine ⟨?_, fun tensor htensor => ?_⟩
    · rintro other (_ | ⟨_, hother⟩)
      · exact htaken
      · exact hall other hother
    · obtain hold | ⟨other, hother, rfl⟩ := htensors tensor htensor
      · obtain hold | rfl := mem_emplace hold
        · exact .inl hold
        · exact .inr ⟨member, List.mem_cons_self, rfl⟩
      · exact .inr ⟨other, List.mem_cons_of_mem _ hother, rfl⟩

theorem foldlM_taken (written : List (SafeTensorWriteEntry × ℕ × ℕ)) (index : SafeTensorIndex)
    (htaken : ∀ member ∈ written, Taken member)
    (hfresh : ∀ member ∈ written, readBack member.1.name ∉ index.tensors.map Prod.fst)
    (hdistinct : (written.map fun member => readBack member.1.name).Nodup) :
    written.foldlM loadMember index = .ok ⟨index.metadata, index.tensors ++
      written.map (fun member => (readBack member.1.name, readInfo member)),
      index.headerBytes⟩ := by
  induction written generalizing index with
  | nil =>
    rw [List.map_nil, List.append_nil]
    rfl
  | cons member written ih =>
    rw [List.map_cons, List.nodup_cons] at hdistinct
    have hstep : loadMember index member = .ok _ :=
      loadMember_ok_iff.mpr ⟨htaken member List.mem_cons_self, rfl⟩
    rw [emplace_fresh (hfresh member List.mem_cons_self)] at hstep
    rw [List.foldlM_cons, hstep]
    refine (ih _ (fun other hother => htaken other (List.mem_cons_of_mem _ hother))
      (fun other hother => ?_) hdistinct.2).trans ?_
    · simp only [List.map_append, List.map_cons, List.map_nil, List.mem_append,
        List.mem_singleton, not_or]
      refine ⟨hfresh other (List.mem_cons_of_mem _ hother), fun hsame => hdistinct.1 ?_⟩
      exact List.mem_map.mpr ⟨other, hother, hsame⟩
    · simp

/-! ## Offsets -/

def totalSize (entries : List SafeTensorWriteEntry) : ℕ := (entries.map (·.data.length)).sum

theorem totalSize_cons (entry : SafeTensorWriteEntry) (entries : List SafeTensorWriteEntry) :
    totalSize (entry :: entries) = entry.data.length + totalSize entries := by
  rw [totalSize, List.map_cons, List.sum_cons]
  rfl

theorem offsets_within (cursor : ℕ) (entries : List SafeTensorWriteEntry)
    (h : cursor + totalSize entries < 2 ^ 63) :
    ∀ member ∈ entries.zip (offsetsFrom cursor entries),
      member.2.1 ≤ member.2.2 ∧ member.2.2 ≤ cursor + totalSize entries := by
  induction entries generalizing cursor with
  | nil => simp
  | cons entry entries ih =>
    rw [totalSize_cons] at h ⊢
    have hnext : (cursor + entry.data.length) % 2 ^ 64 = cursor + entry.data.length :=
      Nat.mod_eq_of_lt (by omega)
    rw [offsetsFrom, List.zip_cons_cons]
    simp only [hnext]
    rintro member (_ | ⟨_, hmember⟩)
    · dsimp only
      omega
    · obtain ⟨hle, hlast⟩ := ih _ (by omega) member hmember
      omega

theorem total_of_offsets {cursor : ℕ} (entries : List SafeTensorWriteEntry)
    (hcursor : cursor < 2 ^ 63)
    (h : ∀ member ∈ entries.zip (offsetsFrom cursor entries), member.2.2 < 2 ^ 63) :
    cursor + totalSize entries < 2 ^ 63 := by
  induction entries generalizing cursor with
  | nil => simpa [totalSize] using hcursor
  | cons entry entries ih =>
    have hdata := entry.data_size
    have hnext : (cursor + entry.data.length) % 2 ^ 64 = cursor + entry.data.length :=
      Nat.mod_eq_of_lt (by omega)
    rw [offsetsFrom, List.zip_cons_cons] at h
    simp only [hnext] at h
    have hfirst : cursor + entry.data.length < 2 ^ 63 := h _ List.mem_cons_self
    have hrest := ih hfirst fun member hmember => h member (List.mem_cons_of_mem _ hmember)
    rw [totalSize_cons]
    omega

/-! ## Round trip -/

/-- What the index should have under the name of a tensor. -/
def tensorOf (member : SafeTensorWriteEntry × ℕ × ℕ) : Bytes × SafeTensorInfo :=
  (member.1.name,
    ⟨member.1.name, member.1.dtype, member.1.shape, member.2.1, member.2.2⟩)

/-- The index has the tensors of the writer and no others, and each range lies in the file. -/
structure Recovers (entries : List SafeTensorWriteEntry) (file : Bytes)
    (index : SafeTensorIndex) : Prop where
  tensors : index.tensors.Perm ((members entries).map tensorOf)
  inside : ∀ tensor ∈ index.tensors, tensor.2.dataBegin ≤ tensor.2.dataEnd ∧
    index.headerBytes + tensor.2.dataEnd ≤ file.length

/-- What the hand-written reader can read back. -/
structure Readable (entries : List SafeTensorWriteEntry) : Prop where
  names : ∀ entry ∈ entries, Printed entry.name ∧ entry.name ≠ metadataKey
  dtypes : ∀ entry ∈ entries, Printed entry.dtype
  size : totalSize entries < 2 ^ 63

theorem mem_members {entry : SafeTensorWriteEntry} (h : entry ∈ entries) :
    ∃ offsets, (entry, offsets) ∈ members entries := by
  rw [← members_fst entries] at h
  obtain ⟨⟨_, offsets⟩, hmember, rfl⟩ := List.mem_map.mp h
  exact ⟨offsets, hmember⟩

theorem entry_of_mem (h : member ∈ members entries) : member.1 ∈ entries := by
  rw [← members_fst entries]
  exact List.mem_map_of_mem h

theorem recovers_of_readable (hfile : writeSafetensorsFile path opened entries = .ok file)
    (h : Readable entries) :
    ∃ index, loadSafetensorsIndex path (some file) = .ok index ∧ Recovers entries file index := by
  obtain ⟨-, haccepted, -, hbytes⟩ := writeSafetensorsFile_ok hfile
  have hwithin := offsets_within 0 entries (by rw [Nat.zero_add]; exact h.size)
  rw [Nat.zero_add] at hwithin
  have hname : ∀ member ∈ members entries, readBack member.1.name = member.1.name :=
    fun member hmember => readBack_of_printed (h.names _ (entry_of_mem hmember)).1
  have hinfo : ∀ member ∈ members entries,
      (readBack member.1.name, readInfo member) = tensorOf member := by
    intro member hmember
    rw [tensorOf, readInfo, hname member hmember,
      readBack_of_printed (h.dtypes _ (entry_of_mem hmember))]
  have hnames : ((members entries).map fun member => readBack member.1.name) =
      entries.map (·.name) := by
    conv_rhs => rw [← members_fst entries, List.map_map]
    exact List.map_congr_left hname
  have hload := foldlM_taken (members entries) ⟨[], [], 8 + (headerText entries).length⟩
    (fun member hmember => ⟨by
      rw [hname member hmember]
      exact (h.names _ (entry_of_mem hmember)).2, (hwithin member hmember).1,
      Nat.lt_of_le_of_lt (hwithin member hmember).2 h.size⟩)
    (fun _ _ => List.not_mem_nil) (by rw [hnames]; exact haccepted.distinct)
  refine ⟨_, (load_written hfile).trans hload, ?_, ?_⟩
  · rw [List.nil_append, List.map_congr_left hinfo]
  · intro tensor htensor
    rw [List.nil_append, List.map_congr_left hinfo] at htensor
    obtain ⟨member, hmember, rfl⟩ := List.mem_map.mp htensor
    obtain ⟨hle, hlast⟩ := hwithin member hmember
    refine ⟨hle, ?_⟩
    have hdata : (entries.flatMap (·.data)).length = totalSize entries := List.length_flatMap
    rw [hbytes, List.length_append, List.length_append, length_writeU64Le, hdata]
    exact Nat.add_le_add_left hlast _

theorem readable_of_recovers (hfile : writeSafetensorsFile path opened entries = .ok file)
    (hindex : loadSafetensorsIndex path (some file) = .ok index) (h : Recovers entries file index) :
    Readable entries := by
  rw [load_written hfile] at hindex
  obtain ⟨htaken, hread⟩ := foldlM_loadMember hindex
  -- A tensor of the index was read, so its strings have no control character.
  have hprinted : ∀ entry ∈ entries, Printed entry.name ∧ Printed entry.dtype := by
    intro entry hentry
    obtain ⟨offsets, hmember⟩ := mem_members hentry
    obtain hnone | ⟨member, -, htensor⟩ :=
      hread _ (h.tensors.mem_iff.mpr (List.mem_map_of_mem hmember))
    · exact absurd hnone List.not_mem_nil
    · rw [tensorOf, readInfo, Prod.mk.injEq, SafeTensorInfo.mk.injEq] at htensor
      obtain ⟨hname, -, hdtype, -⟩ := htensor
      exact ⟨hname ▸ readBack_printed _, hdtype ▸ readBack_printed _⟩
  refine ⟨fun entry hentry => ⟨(hprinted entry hentry).1, ?_⟩,
    fun entry hentry => (hprinted entry hentry).2, ?_⟩
  · obtain ⟨offsets, hmember⟩ := mem_members hentry
    have hkey := (htaken _ hmember).1
    rwa [readBack_of_printed (hprinted entry hentry).1] at hkey
  · have htotal := total_of_offsets entries (Nat.two_pow_pos 63)
      fun member hmember => (htaken member hmember).2.2
    rwa [Nat.zero_add] at htotal

/-- A written file is read back just where its strings are plain, no tensor has the name of the
metadata, and its data have a size that an `int64_t` holds. -/
theorem recovers_iff_readable (path : Bytes) (opened : Bool) (entries : List SafeTensorWriteEntry)
    (file : Bytes) (hfile : writeSafetensorsFile path opened entries = .ok file) :
    (∃ index, loadSafetensorsIndex path (some file) = .ok index ∧ Recovers entries file index) ↔
      Readable entries :=
  ⟨fun ⟨_, hindex, h⟩ => readable_of_recovers hfile hindex h, recovers_of_readable hfile⟩

theorem one_int64 : ∀ dim ∈ [(1 : ℤ)], -2 ^ 63 ≤ dim ∧ dim < 2 ^ 63 := by simp

theorem byte_size : ([0] : Bytes).length < 2 ^ 63 := by simp

def byteTensor (name : Bytes) : SafeTensorWriteEntry :=
  ⟨name, bytes "U8", [1], [0], one_int64, byte_size⟩

theorem exists_of_isOk {ε α : Type} {result : Except ε α} (h : result.isOk = true) :
    ∃ value, result = .ok value := by
  cases result with
  | error e => cases h
  | ok value => exact ⟨value, rfl⟩

theorem recovers_iff_readable_twoTensors : ∃ file index,
    writeSafetensorsFile [] true [byteTensor (bytes "a\"b"), byteTensor (bytes "c\\")] = .ok file ∧
    loadSafetensorsIndex [] (some file) = .ok index ∧
    Recovers [byteTensor (bytes "a\"b"), byteTensor (bytes "c\\")] file index := by
  obtain ⟨file, hfile⟩ : ∃ file, writeSafetensorsFile [] true
      [byteTensor (bytes "a\"b"), byteTensor (bytes "c\\")] = .ok file :=
    exists_of_isOk (by decide +kernel)
  have hreadable : Readable [byteTensor (bytes "a\"b"), byteTensor (bytes "c\\")] := by
    refine ⟨?_, ?_, ?_⟩
    · simp only [List.forall_mem_cons, List.not_mem_nil, false_implies, implies_true, and_true,
        Printed]
      decide +kernel
    · simp only [List.forall_mem_cons, List.not_mem_nil, false_implies, implies_true, and_true,
        Printed]
      decide +kernel
    · simp [totalSize, byteTensor]
  obtain ⟨index, hindex, h⟩ := (recovers_iff_readable _ _ _ file hfile).mpr hreadable
  exact ⟨file, index, hfile, hindex, h⟩

/-- A line break in a name comes back as an `n`. -/
theorem recovers_not_lineBreak : ¬ ∀ (path : Bytes) (opened : Bool)
    (entries : List SafeTensorWriteEntry) (file : Bytes),
    writeSafetensorsFile path opened entries = .ok file →
      ∃ index, loadSafetensorsIndex path (some file) = .ok index ∧ Recovers entries file index := by
  intro h
  obtain ⟨file, hfile⟩ : ∃ file,
      writeSafetensorsFile [] true [byteTensor (bytes "a\nb")] = .ok file :=
    exists_of_isOk (by decide +kernel)
  obtain ⟨index, hindex, hrecovers⟩ := h _ _ _ file hfile
  have hprinted := ((readable_of_recovers hfile hindex hrecovers).names _ List.mem_cons_self).1
  exact absurd (hprinted 0x0A (by decide)) (by decide)

end FastTts.Safetensors
