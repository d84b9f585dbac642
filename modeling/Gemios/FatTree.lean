import Gemios.FatNewFile
import Gemios.FatPathSpec
import Gemios.NameTree

/-!
# The tree of a volume

What the paths of a volume lead to, as a tree of names.  Names are compared without regard to
case, so the tree is one of upper-case names.
-/

namespace Gemios

/-! ### Names -/

/-- A name as `fat_name_equals` compares it. -/
def foldName (name : List UInt8) : List UInt8 := name.map toUpperChar

theorem fatNameEquals_iff (s t : List UInt8) : fatNameEquals s t = true ↔ foldName s = foldName t := by
  induction s generalizing t with
  | nil => cases t <;> simp [fatNameEquals, foldName]
  | cons a s ih =>
    cases t with
    | nil => simp [fatNameEquals, foldName]
    | cons b t =>
      have hrest := ih t
      simp only [foldName] at hrest
      by_cases h : toUpperChar a = toUpperChar b
      · simp [fatNameEquals, foldName, h, hrest]
      · simp [fatNameEquals, foldName, h]

theorem toUpperChar_eq_iff {b : UInt8} (hb : b ∈ [0x00, 0x2E, 0x2F, 0x5C, 0x7E, 0xE5]) (c : UInt8) :
    toUpperChar c = b ↔ c = b := by
  simp only [List.mem_cons, List.not_mem_nil, or_false] at hb
  rcases hb with rfl | rfl | rfl | rfl | rfl | rfl
  all_goals revert c
  all_goals exact forall_byte (by decide +kernel)

theorem toUpperChar_idem : ∀ c, toUpperChar (toUpperChar c) = toUpperChar c :=
  forall_byte (by decide +kernel)

theorem isSlash_toUpperChar : ∀ c, isSlash (toUpperChar c) = isSlash c :=
  forall_byte (by decide +kernel)

theorem foldName_foldName (name : List UInt8) : foldName (foldName name) = foldName name := by
  simp [foldName, toUpperChar_idem]

theorem mem_foldName {b : UInt8} (hb : b ∈ [0x00, 0x2E, 0x2F, 0x5C, 0x7E, 0xE5]) {name : List UInt8} :
    b ∈ foldName name ↔ b ∈ name := by
  simp only [foldName, List.mem_map, toUpperChar_eq_iff hb, exists_eq_right]

theorem findIn_fold {x y : List UInt8} (h : foldName x = foldName y) (d : Disk) (addrs : List Nat) :
    findIn d x addrs = findIn d y addrs := by
  have hmatch : ∀ p e, entryMatches p e x = entryMatches p e y := by
    intro p e
    have heq : ∀ s, fatNameEquals s x = fatNameEquals s y := by
      intro s
      rw [Bool.eq_iff_iff, fatNameEquals_iff, fatNameEquals_iff, h]
    simp only [entryMatches, heq]
  have hbody : findBody x = findBody y := by
    funext sec slot e p
    simp only [findBody, hmatch]
  rw [findIn, hbody, findIn]

/-- A name of a file or a directory.  A `~` is for aliases, a long name ends within the parser's
    bound, and a short one is found again. -/
structure FileName where
  chars : List UInt8
  text : NameText chars
  short : chars.length ≤ 247
  noTilde : (0x7E : UInt8) ∉ chars
  readable : Readable chars
deriving DecidableEq

namespace FileName

theorem ext {x y : FileName} (h : x.chars = y.chars) : x = y := by
  cases x
  cases y
  cases h
  rfl

variable (x : FileName)

theorem ne_dots : x.chars ≠ [0x2E] ∧ x.chars ≠ [0x2E, 0x2E] := by
  constructor
  all_goals
    intro h
    have hlast := x.readable.2
    rw [h] at hlast
    simp at hlast

theorem nameOk : NameOk x.chars := by
  unfold NameOk
  split
  · exact x.short
  · exact ⟨x.readable.1, Or.inl x.readable.2⟩

def upper : FileName where
  chars := foldName x.chars
  text :=
    { ne := by simpa [foldName] using x.text.ne
      nul := by simpa [mem_foldName] using x.text.nul
      slash := by
        intro c hc
        simp only [foldName, List.mem_map] at hc
        obtain ⟨b, hb, rfl⟩ := hc
        rw [isSlash_toUpperChar, x.text.slash b hb]
      length := by simpa [foldName] using x.text.length }
  short := by simpa [foldName] using x.short
  noTilde := by simpa [mem_foldName] using x.noTilde
  readable := by
    have hfold : ∀ {b : UInt8}, b ∈ [0x00, 0x2E, 0x2F, 0x5C, 0x7E, 0xE5] → ∀ o : Option UInt8,
        o.map toUpperChar = some b → o = some b := by
      intro b hb o ho
      rw [Option.map_eq_some_iff] at ho
      obtain ⟨c, rfl, hc⟩ := ho
      rw [(toUpperChar_eq_iff hb c).mp hc]
    refine ⟨fun h => x.readable.1 (hfold (by decide) _ ?_), fun h => x.readable.2 (hfold (by decide) _ ?_)⟩
    · simpa [foldName] using h
    · simpa [foldName] using h

end FileName

/-- A name in upper case: what `fat_name_equals` leaves of a name. -/
structure NameKey extends FileName where
  folded : foldName chars = chars
deriving DecidableEq

theorem NameKey.ext {k l : NameKey} (h : k.chars = l.chars) : k = l := by
  obtain ⟨k, hk⟩ := k
  obtain ⟨l, hl⟩ := l
  obtain rfl : k = l := FileName.ext h
  rfl

def FileName.key (x : FileName) : NameKey := ⟨x.upper, foldName_foldName x.chars⟩

theorem FileName.key_chars (x : FileName) : x.key.chars = foldName x.chars := rfl

theorem FileName.key_eq_iff (x y : FileName) : x.key = y.key ↔ foldName x.chars = foldName y.chars := by
  constructor
  · intro h
    rw [← x.key_chars, ← y.key_chars, h]
  · intro h
    exact NameKey.ext h

theorem NameKey.key_toFileName (k : NameKey) : k.toFileName.key = k := NameKey.ext k.folded

/-! ### Paths -/

/-- A path that fits the driver's copy, with the names it is made of. -/
structure FilePath where
  bytes : List UInt8
  dirs : List FileName
  name : FileName
  fits : bytes.length ≤ 511
  spells : pathComponents bytes [] = dirs.map FileName.chars ++ [name.chars]

/-- Where the path leads in a tree of upper-case names. -/
def FilePath.keys (path : FilePath) : List NameKey := path.dirs.map FileName.key ++ [path.name.key]

theorem FilePath.resolveParent (path : FilePath) (env : Env) (fs : FatFs) (d : Disk) :
    fatResolveParentAndName env fs d path.bytes =
      (resolveFrom env fs d (fatRootDir fs) (path.dirs.map FileName.chars)).map
        fun dir => (dir, path.name.chars) := by
  have hspells := path.spells
  have hne : path.bytes ≠ [] := by
    intro h
    rw [h] at hspells
    simp [pathComponents] at hspells
  obtain ⟨parent, name, hslash, hcomps, hres, _, hnil⟩ := resolveParent_split env fs d hne
  rw [List.take_of_length_le path.fits, hspells] at hcomps
  -- no component is as long as the pieces of a name that is cut
  have hshort : ∀ c ∈ path.dirs.map FileName.chars ++ [path.name.chars], c.length ≤ 247 := by
    intro c hc
    rw [List.mem_append, List.mem_map, List.mem_singleton] at hc
    rcases hc with ⟨x, _, rfl⟩ | rfl
    · exact x.short
    · exact path.name.short
  have hname : name ≠ [] := by
    intro h
    rw [h, hnil h] at hcomps
    simp [pathComponents] at hcomps
  obtain ⟨rest, hpieces, hrest⟩ := pathComponents_name name [] hslash (by simp) (by simpa using hname)
  rw [List.nil_append] at hpieces hrest
  have hlen := hshort (name.take 255) (by rw [hcomps, hpieces]; simp)
  rw [List.length_take] at hlen
  rw [hpieces, hrest (by omega), List.take_of_length_le (by omega)] at hcomps
  obtain ⟨hdirs, hlast⟩ := List.append_inj' hcomps (by simp)
  rw [hres, List.take_of_length_le (by omega), fatResolveDir, ← hdirs, (List.cons.inj hlast).1]

/-! ### The names of a directory -/

/-- The bytes of a file, as far as a chain is followed. -/
def fileBytes (fs : FatFs) (d : Disk) (e : Slot) : List UInt8 :=
  (chainBytes fs d ((chainOf fs d e.cluster).take maxVisits)).take e.fileSize

def entryNode (fs : FatFs) (d : Disk) (e : Slot) : Names.Node FatDir (List UInt8) :=
  if e.isDirectory then .sub (dirOfCluster fs e.cluster) else .file (fileBytes fs d e)

/-- What the names of the directories stand for. -/
def look (fs : FatFs) (d : Disk) : Names FatDir NameKey (List UInt8) := fun dir k =>
  (findIn d k.chars (dirAddrs fs d dir)).map fun loc => entryNode fs d loc.entry

def treeOf (fs : FatFs) (d : Disk) : List NameKey → Option (Names.Item (List UInt8)) :=
  (look fs d).itemAt (fatRootDir fs)

theorem findIn_key (x : FileName) (d : Disk) (addrs : List Nat) :
    findIn d x.key.chars addrs = findIn d x.chars addrs :=
  findIn_fold (foldName_foldName x.chars) d addrs

theorem look_key (fs : FatFs) (d : Disk) (dir : FatDir) (x : FileName) : look fs d dir x.key =
    (findIn d x.chars (dirAddrs fs d dir)).map fun loc => entryNode fs d loc.entry := by
  rw [look, findIn_key]

/-- A volume with every directory in format, with one name for every entry, and with a chain for
    all bytes of every file. -/
structure Volume (fs : FatFs) (d : Disk) : Prop where
  wf : WellFormed fs d
  format : ∀ D, LiveDir fs d D → FormatOk fs d D
  alone : ∀ D, LiveDir fs d D → ∀ (k l : NameKey) (loc loc' : EntryLoc),
    findIn d k.chars (dirAddrs fs d D) = some loc → findIn d l.chars (dirAddrs fs d D) = some loc' →
    loc.addr = loc'.addr → k = l
  full : ∀ D, LiveDir fs d D → ∀ a ∈ childAddrs fs d D, (slotAt d a).isDirectory = false →
    (slotAt d a).fileSize ≤ ((chainOf fs d (slotAt d a).cluster).take maxVisits).length *
      fs.bytesPerCluster

theorem length_chainBytes (fs : FatFs) (d : Disk) (L : List Nat) :
    (chainBytes fs d L).length = L.length * fs.bytesPerCluster := by
  induction L with
  | nil => simp
  | cons c L ih => rw [chainBytes_cons, List.length_append, ih, length_clusBytes, List.length_cons, Nat.succ_mul,
      Nat.add_comm]

section

variable {fs : FatFs} {d : Disk}

theorem WellFormed.find_name (hw : WellFormed fs d) {D : FatDir} (hD : LiveDir fs d D) (x : FileName)
    {loc : EntryLoc} (h : findIn d x.chars (dirAddrs fs d D) = some loc) :
    loc.addr ∈ childAddrs fs d D ∧ loc.entry = slotAt d loc.addr := by
  rw [← fatDirFindEntry_eq hw.sound Env.ideal (hw.isDir hD)] at h
  exact ⟨hw.find_child Env.ideal hD x.ne_dots h, (hw.find_live Env.ideal hD h).2⟩

variable (hv : Volume fs d)

include hv

theorem Volume.look_sub {D C : FatDir} (hD : LiveDir fs d D) {k : NameKey}
    (h : look fs d D k = some (.sub C)) : ∃ loc, findIn d k.chars (dirAddrs fs d D) = some loc ∧
      loc.addr ∈ childAddrs fs d D ∧ (slotAt d loc.addr).isDirectory = true ∧
      C = ⟨false, (slotAt d loc.addr).cluster⟩ := by
  unfold look at h
  rw [Option.map_eq_some_iff] at h
  obtain ⟨loc, hfind, hnode⟩ := h
  obtain ⟨hmem, hentry⟩ := hv.wf.find_name hD k.toFileName hfind
  rw [hentry, entryNode] at hnode
  cases hsub : (slotAt d loc.addr).isDirectory with
  | false =>
    rw [hsub] at hnode
    cases hnode
  | true =>
    rw [hsub, if_pos rfl] at hnode
    obtain ⟨⟨L, hL⟩, _⟩ := hv.wf.subdir D hD _ hmem hsub
    have hge := hL.head_inRange.1
    refine ⟨loc, hfind, hmem, hsub, ?_⟩
    rw [dirOfCluster, if_neg (by omega)] at hnode
    cases hnode
    rfl

/-- **The directories of a volume form a tree.** -/
theorem Volume.isTree : (look fs d).IsTree (fatRootDir fs) (LiveDir fs d) where
  top := LiveDir.root
  sub := by
    intro D k C hD h
    obtain ⟨loc, _, hmem, hsub, rfl⟩ := hv.look_sub hD h
    exact LiveDir.sub hD hmem hsub
  noRoot := by
    intro D k hD h
    obtain ⟨loc, _, hmem, hsub, hC⟩ := hv.look_sub hD h
    exact hv.wf.sub_ne_root hD hmem hC.symm
  oneName := by
    intro D D' k l C hD hD' h h'
    obtain ⟨loc, hfind, hmem, hsub, rfl⟩ := hv.look_sub hD h
    obtain ⟨loc', hfind', hmem', _, hC⟩ := hv.look_sub hD' h'
    -- the two entries own one chain
    have howner := hv.wf.owner_unique (Owner.child hD hmem) (Owner.child hD' hmem')
      (hv.wf.subdir D hD _ hmem hsub).1 (congrArg FatDir.cluster hC).symm
    have haddr : loc'.addr = loc.addr := Option.some.inj howner
    have hdirs : D = D' := by
      by_contra hne
      refine hv.wf.dirs_disjoint hD hD' hne (mem_liveAddrs (mem_childAddrs.mp hmem).1).1 ?_
      rw [← haddr]
      exact (mem_liveAddrs (mem_childAddrs.mp hmem').1).1
    subst hdirs
    exact ⟨rfl, hv.alone D hD k l loc loc' hfind hfind' haddr.symm⟩

/-! ### What the driver reports -/

variable (env : Env) [env.NoFault]

theorem Volume.resolveStep {D : FatDir} (hD : LiveDir fs d D) (x : FileName) :
    resolveStep env fs d D x.chars = (look fs d).step D x.key := by
  rw [Gemios.resolveStep, if_neg x.ne_dots.1, if_neg x.ne_dots.2, Names.step, look_key,
    fatDirFindEntry_eq hv.wf.sound env (hv.wf.isDir hD)]
  cases findIn d x.chars (dirAddrs fs d D) with
  | none => rfl
  | some loc =>
    simp only [Option.map_some, Option.bind_some, entryNode]
    split
    · rfl
    · rfl

theorem Volume.resolveFrom (xs : List FileName) {D : FatDir} (hD : LiveDir fs d D) :
    resolveFrom env fs d D (xs.map FileName.chars) = (look fs d).walk D (xs.map FileName.key) := by
  induction xs generalizing D with
  | nil => rfl
  | cons x xs ih =>
    rw [List.map_cons, List.map_cons, Gemios.resolveFrom, Names.walk, ← hv.resolveStep env hD]
    cases hstep : Gemios.resolveStep env fs d D x.chars with
    | none => rfl
    | some C => exact ih (hv.wf.resolveStep_live env hD hstep)

theorem Volume.lookup (path : FilePath) : fatLookup env fs d path.bytes =
    ((look fs d).walk (fatRootDir fs) (path.dirs.map FileName.key)).bind fun D =>
      findIn d path.name.chars (dirAddrs fs d D) := by
  rw [fatLookup, path.resolveParent, hv.resolveFrom env path.dirs LiveDir.root]
  cases hwalk : (look fs d).walk (fatRootDir fs) (path.dirs.map FileName.key) with
  | none => rfl
  | some D =>
    exact fatDirFindEntry_eq hv.wf.sound env (hv.wf.isDir (hv.isTree.walk_mem hwalk)) _

theorem Volume.treeOf_eq (path : FilePath) : treeOf fs d path.keys =
    (fatLookup env fs d path.bytes).map fun loc => (entryNode fs d loc.entry).item := by
  rw [treeOf, FilePath.keys, Names.itemAt_concat, Names.nodeAt, hv.lookup env]
  cases (look fs d).walk (fatRootDir fs) (path.dirs.map FileName.key) with
  | none => rfl
  | some D =>
    simp only [Option.bind_some, look_key, Option.map_map]
    rfl

theorem Volume.lookup_child {path : FilePath} {loc : EntryLoc}
    (h : fatLookup env fs d path.bytes = some loc) :
    ∃ D, LiveDir fs d D ∧ loc.addr ∈ childAddrs fs d D ∧ loc.entry = slotAt d loc.addr := by
  rw [hv.lookup env, Option.bind_eq_some_iff] at h
  obtain ⟨D, hwalk, hfind⟩ := h
  have hD := hv.isTree.walk_mem hwalk
  obtain ⟨hmem, hentry⟩ := hv.wf.find_name hD path.name hfind
  exact ⟨D, hD, hmem, hentry⟩

end

/-- What the driver reports under the paths of a volume is what a tree says. -/
structure Shows (env : Env) (fs : FatFs) (d : Disk)
    (T : List NameKey → Option (Names.Item (List UInt8))) : Prop where
  readFile : ∀ (path : FilePath) (maxLen : Nat), fatReadFile env fs d path.bytes maxLen =
    match T path.keys with
    | some (.file bs) => some (bs.take maxLen)
    | _ => none
  isDir : ∀ path : FilePath, fatIsDir env fs d path.bytes = true ↔ T path.keys = some .dir
  statFile : ∀ (path : FilePath) (bs : List UInt8), T path.keys = some (.file bs) →
    ∃ attr, fatStat env fs d path.bytes = some (bs.length, attr) ∧ attr &&& 0x10 = 0
  statDir : ∀ path : FilePath, T path.keys = some .dir →
    ∃ size attr, fatStat env fs d path.bytes = some (size, attr) ∧ attr &&& 0x10 ≠ 0
  statNone : ∀ path : FilePath, T path.keys = none → fatStat env fs d path.bytes = none

section

variable {fs : FatFs} {d : Disk}

theorem readContents_fileBytes (hs : fs.Sound) (env : Env) [env.NoFault] {e : Slot}
    (hfile : e.isDirectory = false) (hch : e.cluster < 2 ∨ HasChain fs d e.cluster) (maxLen : Nat) :
    readContents env fs d e maxLen = some ((fileBytes fs d e).take maxLen) := by
  rw [readContents_eq hs env hfile hch, fileBytes, List.take_take, Nat.min_comm]

theorem length_fileBytes {e : Slot} (h : e.fileSize ≤
    ((chainOf fs d e.cluster).take maxVisits).length * fs.bytesPerCluster) :
    (fileBytes fs d e).length = e.fileSize := by
  rw [fileBytes, List.length_take, length_chainBytes, Nat.min_eq_left h]

theorem FilePath.notTop (path : FilePath) :
    ¬(path.bytes = [] ∨ path.bytes = [0x2F] ∨ path.bytes = [0x5C]) := by
  have hspells := path.spells
  rintro (h | h | h) <;> rw [h] at hspells
  · simp [pathComponents] at hspells
  · simp [pathComponents, isSlash] at hspells
  · simp [pathComponents, isSlash] at hspells

/-- **The driver reports the tree of the volume.** -/
theorem Volume.shows (hv : Volume fs d) (env : Env) [env.NoFault] :
    Shows env fs d (treeOf fs d) where
  readFile := by
    intro path maxLen
    rw [hv.treeOf_eq env, fatReadFile]
    cases hloc : fatLookup env fs d path.bytes with
    | none => rfl
    | some loc =>
      obtain ⟨D, hD, hmem, hentry⟩ := hv.lookup_child env hloc
      dsimp only [Option.map_some]
      cases hsub : loc.entry.isDirectory with
      | true =>
        rw [readContents, if_pos hsub, entryNode, if_pos hsub]
        rfl
      | false =>
        have hfile := hsub
        rw [hentry] at hfile
        rw [readContents_fileBytes hv.wf.sound env hsub (hentry ▸ hv.wf.file D hD _ hmem hfile),
          entryNode, hsub]
        rfl
  isDir := by
    intro path
    rw [fatIsDir, fatResolveDir, path.spells, treeOf, Names.itemAt_eq_dir, Option.isSome_iff_exists,
      FilePath.keys]
    have hnames : path.dirs.map FileName.chars ++ [path.name.chars] =
        (path.dirs ++ [path.name]).map FileName.chars := by simp
    have hkeys : path.dirs.map FileName.key ++ [path.name.key] =
        (path.dirs ++ [path.name]).map FileName.key := by simp
    rw [hnames, hkeys, hv.resolveFrom env _ LiveDir.root]
  statFile := by
    intro path bs h
    rw [hv.treeOf_eq env, Option.map_eq_some_iff] at h
    obtain ⟨loc, hloc, hitem⟩ := h
    obtain ⟨D, hD, hmem, hentry⟩ := hv.lookup_child env hloc
    rw [fatStat, if_neg path.notTop, hloc]
    cases hsub : loc.entry.isDirectory with
    | true =>
      rw [entryNode, if_pos hsub] at hitem
      cases hitem
    | false =>
      rw [entryNode, hsub] at hitem
      cases hitem
      have hfile := hsub
      rw [hentry] at hfile
      refine ⟨loc.entry.attr, ?_, by simpa [Slot.isDirectory] using hsub⟩
      rw [Option.map_some, length_fileBytes (hentry ▸ hv.full D hD _ hmem hfile)]
  statDir := by
    intro path h
    rw [hv.treeOf_eq env, Option.map_eq_some_iff] at h
    obtain ⟨loc, hloc, hitem⟩ := h
    rw [fatStat, if_neg path.notTop, hloc]
    cases hsub : loc.entry.isDirectory with
    | true => exact ⟨_, _, rfl, by simpa [Slot.isDirectory] using hsub⟩
    | false =>
      rw [entryNode, hsub] at hitem
      cases hitem
  statNone := by
    intro path h
    rw [hv.treeOf_eq env, Option.map_eq_none_iff] at h
    rw [fatStat, if_neg path.notTop, h]
    rfl

end

end Gemios
