import Ant.Library.Wtf8

/-! Positions in stored strings. A string is stored as bytes, while the language counts code units:
a cursor walks over the bytes and counts both. -/
namespace Ant.Text.Scan
open Library.Wtf8 List

structure Scanned where
  width : Nat
  units : Nat
  point : Nat
  deriving DecidableEq,Repr

/-- Only a reader of the code point checks that all its bytes are there. -/
def utf16ScanDecode (reads : Bool) : List Nat → Scanned
  | [] => ⟨1,1,0⟩
  | c :: more =>
    if c < 0x80 then ⟨1,1,c⟩
    else if c / 32 = 6 ∧ (reads = true → 1 ≤ more.length) then ⟨2,1,c % 32 * 64 + more.getD 0 0 % 64⟩
    else if c / 16 = 14 ∧ (reads = true → 2 ≤ more.length) then
      ⟨3,1,c % 16 * 4096 + more.getD 0 0 % 64 * 64 + more.getD 1 0 % 64⟩
    else if c / 8 = 30 ∧ (reads = true → 3 ≤ more.length) then
      ⟨4,2,c % 8 * 262144 + more.getD 0 0 % 64 * 4096 + more.getD 1 0 % 64 * 64 + more.getD 2 0 % 64⟩
    else ⟨1,1,c⟩

theorem utf16ScanDecode_encode (reads : Bool) (point : Point) (rest : List Nat) :
    utf16ScanDecode reads (encode point ++ rest) = ⟨(encode point).length,(unitsOf point).length,point.val⟩ := by
  obtain ⟨upper,equal⟩ | ⟨lower,upper,equal⟩ | ⟨lower,upper,equal⟩ | ⟨lower,equal⟩ := encode_cases point
  all_goals
    rw [equal]
    simp only [cons_append,utf16ScanDecode,getD_cons_zero,getD_cons_succ,length_cons]
  · rw [if_pos upper,unitsOf_basic (by omega)]
    rfl
  · rw [if_neg (by omega),if_pos (by omega),unitsOf_basic (by omega)]
    simp only [Scanned.mk.injEq,length_cons,length_nil,true_and]
    omega
  · rw [if_neg (by omega),if_neg (by omega),if_pos (by omega),unitsOf_basic (by omega)]
    simp only [Scanned.mk.injEq,length_cons,length_nil,true_and]
    omega
  · rw [if_neg (by omega),if_neg (by omega),if_neg (by omega),if_pos (by omega),unitsOf_pair (by omega)]
    simp only [Scanned.mk.injEq,length_cons,length_nil,true_and]
    omega

structure Cursor where
  byte : Nat
  unit : Nat
  deriving DecidableEq,Repr

def Cursor.past (cursor : Cursor) (scanned : Scanned) : Cursor := ⟨cursor.byte + scanned.width,cursor.unit + scanned.units⟩

def walk (text : List Nat) : Nat → Cursor
  | 0 => ⟨0,0⟩
  | count+1 =>
    let cursor := walk text count
    if cursor.byte < text.length then cursor.past (utf16ScanDecode false (text.drop cursor.byte)) else cursor

/-- A scan starts at the beginning, or at a place before its target that an earlier scan of the string
or its index of checkpoints has kept. -/
def resume (text : List Nat) (kept target : Nat) : Cursor := if target < (walk text kept).unit then ⟨0,0⟩ else walk text kept

def utf16IndexChunk : Nat := 64

/-- The checkpoints of a long string: one place for each chunk of units. -/
def utf16IndexBuild (text : List Nat) : List Cursor :=
  let rec go : Nat → Cursor → List Cursor → List Cursor
    | 0,_,points => points
    | fuel+1,cursor,points =>
      if cursor.byte < text.length then
        let scanned := utf16ScanDecode false (text.drop cursor.byte)
        go fuel (cursor.past scanned)
          (if points.length * utf16IndexChunk < cursor.unit + scanned.units then points ++ [cursor] else points)
      else points
  go text.length ⟨0,0⟩ [⟨0,0⟩]

def utf16IndexSeek (points : List Cursor) (cursor : Cursor) (target : Nat) : Cursor :=
  let rec checkpoint : Nat → Cursor
    | 0 => points.getD 0 ⟨0,0⟩
    | point+1 => if target < (points.getD (point + 1) ⟨0,0⟩).unit then checkpoint point else points.getD (point + 1) ⟨0,0⟩
  let found := checkpoint (min (target / utf16IndexChunk) (points.length - 1))
  if found.unit ≤ cursor.unit then cursor else found

/-- A string is indexed only when it is long and asked for again. -/
def utf16ScanCursorResumeIndexed (text : List Nat) (kept : Nat) (indexed : Bool) (target : Nat) : Cursor :=
  let cursor := resume text kept target
  if target ≤ cursor.unit ∨ target - cursor.unit ≤ utf16IndexChunk ∨ indexed = false then cursor
  else utf16IndexSeek (utf16IndexBuild text) cursor target

def isAscii (text : List Nat) : Bool := text.all (· < 0x80)

def utf16Strlen (text : List Nat) : Nat :=
  let rec go : Nat → Cursor → Nat
    | 0,cursor => cursor.unit
    | fuel+1,cursor =>
      if cursor.byte < text.length then go fuel (cursor.past (utf16ScanDecode false (text.drop cursor.byte))) else cursor.unit
  go text.length ⟨0,0⟩

/-- To a target in units; what happens at a pair with the target in its middle is left open. -/
def scan (text : List Nat) (target : Nat) (cut : Cursor → Scanned → Cursor × Nat) : Nat → Cursor → Cursor × Option Nat
  | 0,cursor => (cursor,none)
  | fuel+1,cursor =>
    if cursor.byte < text.length ∧ cursor.unit < target then
      let scanned := utf16ScanDecode false (text.drop cursor.byte)
      if scanned.units = 2 ∧ cursor.unit + 1 = target then
        let split := cut cursor (utf16ScanDecode true (text.drop cursor.byte))
        (split.1,some split.2)
      else scan text target cut fuel (cursor.past scanned)
    else (cursor,none)

def cutStart (cursor : Cursor) (scanned : Scanned) : Cursor × Nat := (cursor.past scanned,0xDC00 + (scanned.point - 0x10000) % 1024)

def cutEnd (cursor : Cursor) (scanned : Scanned) : Cursor × Nat := (cursor,0xD800 + (scanned.point - 0x10000) / 1024)

structure ByteRange where
  byteStart : Nat
  byteEnd : Nat
  prefixSurrogate : Option Nat
  suffixSurrogate : Option Nat
  deriving DecidableEq,Repr

def utf16RangeToByteRange (text : List Nat) (kept start stop : Nat) : ByteRange :=
  if stop ≤ start then ⟨0,0,none,none⟩
  else if isAscii text then ⟨min start text.length,min stop text.length,none,none⟩
  else
    let first := scan text start cutStart text.length (resume text kept start)
    let last := scan text stop cutEnd text.length first.1
    ⟨first.1.byte,last.1.byte,first.2,last.2⟩

def utf16CodeUnitAt (text : List Nat) (kept index : Nat) : Option Nat :=
  if isAscii text then text[index]?
  else
    let rec go : Nat → Cursor → Option Nat
      | 0,_ => none
      | fuel+1,cursor =>
        if cursor.byte < text.length then
          let scanned := utf16ScanDecode true (text.drop cursor.byte)
          if cursor.unit = index then
            some (if scanned.units = 2 then 0xD800 + (scanned.point - 0x10000) / 1024 else scanned.point)
          else if scanned.units = 2 ∧ cursor.unit + 1 = index then some (0xDC00 + (scanned.point - 0x10000) % 1024)
          else go fuel (cursor.past scanned)
        else none
    go text.length (resume text kept index)

def cursorAfter (before : List Point) : Cursor := ⟨(bytes before).length,(units before).length⟩

theorem drop_cursorAfter (before after : List Point) : (bytes (before ++ after)).drop (cursorAfter before).byte = bytes after := by
  simp [cursorAfter]

theorem cursorAfter_past {before rest : List Point} {point : Point} {reads : Bool} :
    (cursorAfter before).past (utf16ScanDecode reads (encode point ++ bytes rest)) = cursorAfter (before ++ [point]) := by
  simp [utf16ScanDecode_encode,Cursor.past,cursorAfter]

theorem cursorAfter_inside {before rest : List Point} {point : Point} :
    (cursorAfter before).byte < (bytes (before ++ point :: rest)).length := by
  have positive := encode_length_pos point
  simp [cursorAfter]
  omega

theorem walk_between (text : List Point) (count : Nat) :
    ∃ before after, text = before ++ after ∧ walk (bytes text) count = cursorAfter before := by
  induction count with
  | zero => exact ⟨[],text,rfl,rfl⟩
  | succ count ih =>
    obtain ⟨before,after,rfl,equal⟩ := ih
    simp only [walk,equal,drop_cursorAfter]
    cases after with
    | nil => exact ⟨before,[],rfl,by simp [cursorAfter]⟩
    | cons point rest =>
      rw [if_pos cursorAfter_inside]
      exact ⟨before ++ [point],rest,by simp,cursorAfter_past⟩

theorem resume_between (text : List Point) (kept target : Nat) :
    ∃ before after, text = before ++ after ∧ resume (bytes text) kept target = cursorAfter before ∧ (units before).length ≤ target := by
  obtain ⟨before,after,same,equal⟩ := walk_between text kept
  unfold resume
  split
  · exact ⟨[],text,rfl,rfl,Nat.zero_le _⟩
  · next reached =>
    rw [equal] at reached
    exact ⟨before,after,same,equal,Nat.le_of_not_lt reached⟩

/-- The checkpoints are places of the walk over the string, from its start on. -/
theorem indexBuild_walked (text : List Nat) :
    ∃ more, utf16IndexBuild text = ⟨0,0⟩ :: more ∧ ∀ point ∈ more, ∃ count, walk text count = point := by
  suffices every : ∀ fuel count more, (∀ point ∈ more, ∃ count, walk text count = point) →
      ∃ further, utf16IndexBuild.go text fuel (walk text count) (⟨0,0⟩ :: more) = ⟨0,0⟩ :: further ∧
        ∀ point ∈ further, ∃ count, walk text count = point from
    every text.length 0 [] (by simp)
  intro fuel
  induction fuel with
  | zero => exact fun _ more walked => ⟨more,rfl,walked⟩
  | succ fuel ih =>
    intro count more walked
    rw [utf16IndexBuild.go]
    split
    · next inside =>
      have next : (walk text count).past (utf16ScanDecode false (text.drop (walk text count).byte)) = walk text (count + 1) := by
        rw [walk,if_pos inside]
      dsimp only
      rw [next]
      split
      · apply ih _ (more ++ [walk text count])
        exact forall_mem_append.mpr ⟨walked,forall_mem_singleton.mpr ⟨count,rfl⟩⟩
      · exact ih _ _ walked
    · exact ⟨more,rfl,walked⟩

/-- Where the index is used, the scan starts at a place of the walk that is not past its target. -/
theorem resumeIndexed_kept (text : List Nat) (kept : Nat) (indexed : Bool) (target : Nat) :
    ∃ place, utf16ScanCursorResumeIndexed text kept indexed target = resume text place target := by
  obtain ⟨more,built,walked⟩ := indexBuild_walked text
  have reached (point : Nat) : ∃ count, walk text count = utf16IndexSeek.checkpoint (⟨0,0⟩ :: more) target point ∧
      (walk text count).unit ≤ target := by
    induction point with
    | zero => exact ⟨0,rfl,Nat.zero_le _⟩
    | succ point ih =>
      rw [utf16IndexSeek.checkpoint]
      split
      · exact ih
      · next near =>
        rw [getD_cons_succ,getD_eq_getElem?_getD] at near ⊢
        cases found : more[point]? with
        | none => exact ⟨0,rfl,Nat.zero_le _⟩
        | some place =>
          obtain ⟨count,equal⟩ := walked place (mem_of_getElem? found)
          rw [found] at near
          exact ⟨count,equal,by rw [equal]; exact Nat.le_of_not_lt near⟩
  unfold utf16ScanCursorResumeIndexed utf16IndexSeek
  rw [built]
  dsimp only
  split
  · exact ⟨kept,rfl⟩
  · split
    · exact ⟨kept,rfl⟩
    · obtain ⟨count,equal,before⟩ := reached (min (target / utf16IndexChunk) ((⟨0,0⟩ :: more : List Cursor).length - 1))
      exact ⟨count,by rw [resume,if_neg (Nat.not_lt.mpr before),equal]⟩

theorem resumeIndexed_between (text : List Point) (kept : Nat) (indexed : Bool) (target : Nat) :
    ∃ before after, text = before ++ after ∧ (units before).length ≤ target ∧
      utf16ScanCursorResumeIndexed (bytes text) kept indexed target = cursorAfter before := by
  obtain ⟨place,resumed⟩ := resumeIndexed_kept (bytes text) kept indexed target
  obtain ⟨before,after,whole,reached,below⟩ := resume_between text place target
  exact ⟨before,after,whole,below,resumed.trans reached⟩

theorem strlen_go (before after : List Point) (fuel : Nat) (enough : after.length ≤ fuel) :
    utf16Strlen.go (bytes (before ++ after)) fuel (cursorAfter before) = (units (before ++ after)).length := by
  induction after generalizing before fuel with
  | nil => cases fuel <;> simp [utf16Strlen.go,cursorAfter]
  | cons point rest ih =>
    cases fuel with
    | zero => simp at enough
    | succ fuel =>
      rw [utf16Strlen.go,if_pos cursorAfter_inside,drop_cursorAfter,bytes_cons,cursorAfter_past]
      have next := ih (before ++ [point]) fuel (by simpa using enough)
      rwa [append_assoc,singleton_append] at next

theorem length_le_bytes (text : List Point) : text.length ≤ (bytes text).length := by
  induction text with
  | nil => simp
  | cons point rest ih =>
    have positive := encode_length_pos point
    simp only [bytes_cons,length_append,length_cons]
    omega

theorem utf16Strlen_bytes {text : List Point} : utf16Strlen (bytes text) = (units text).length :=
  strlen_go [] text _ (length_le_bytes text)

section Loop
variable (target : Nat) (cut : Cursor → Scanned → Cursor × Nat) (before rest : List Point) {point : Point}

theorem scan_end (fuel : Nat) : scan (bytes (before ++ [])) target cut fuel (cursorAfter before) = (cursorAfter before,none) := by
  cases fuel <;> simp [scan,cursorAfter]

theorem scan_there (fuel : Nat) (there : (units before).length = target) :
    scan (bytes (before ++ rest)) target cut fuel (cursorAfter before) = (cursorAfter before,none) := by
  cases fuel <;> simp [scan,cursorAfter,there]

theorem scan_past (fuel : Nat) (short : (units (before ++ [point])).length ≤ target) :
    scan (bytes (before ++ point :: rest)) target cut (fuel + 1) (cursorAfter before) =
      scan (bytes (before ++ point :: rest)) target cut fuel (cursorAfter (before ++ [point])) := by
  have longer : (units before).length + (unitsOf point).length ≤ target := by simpa using short
  have positive := unitsOf_length_pos point
  rw [scan,if_pos ⟨cursorAfter_inside,by simp only [cursorAfter]; omega⟩,drop_cursorAfter,bytes_cons]
  rw [if_neg,cursorAfter_past]
  rw [utf16ScanDecode_encode]
  simp only [cursorAfter]
  omega

theorem scan_cut (fuel : Nat) (above : 0x10000 ≤ point.val) (middle : (units before).length + 1 = target) :
    scan (bytes (before ++ point :: rest)) target cut (fuel + 1) (cursorAfter before) =
      ((cut (cursorAfter before) (utf16ScanDecode true (encode point ++ bytes rest))).1,
        some (cut (cursorAfter before) (utf16ScanDecode true (encode point ++ bytes rest))).2) := by
  rw [scan,if_pos ⟨cursorAfter_inside,by simp only [cursorAfter]; omega⟩,drop_cursorAfter,bytes_cons]
  rw [if_pos]
  rw [utf16ScanDecode_encode,unitsOf_pair above]
  exact ⟨rfl,middle⟩

end Loop

/-- The scan passes whole code points, and stops at its target, at a pair that the target cuts, or
at the end of the text. -/
theorem scan_spec (target : Nat) (cut : Cursor → Scanned → Cursor × Nat) (before after : List Point) (fuel : Nat)
    (enough : after.length ≤ fuel) (reached : (units before).length ≤ target) : ∃ passed rest, after = passed ++ rest ∧
      (scan (bytes (before ++ after)) target cut fuel (cursorAfter before) = (cursorAfter (before ++ passed),none) ∧
        (units (before ++ passed)).length ≤ target ∧ (rest = [] ∨ (units (before ++ passed)).length = target) ∨
      ∃ pair others, rest = pair :: others ∧ 0x10000 ≤ pair.val ∧ (units (before ++ passed)).length + 1 = target ∧
        ∃ scanned, scanned = utf16ScanDecode true (encode pair ++ bytes others) ∧
          scan (bytes (before ++ after)) target cut fuel (cursorAfter before) =
            ((cut (cursorAfter (before ++ passed)) scanned).1,some (cut (cursorAfter (before ++ passed)) scanned).2)) := by
  induction after generalizing before fuel with
  | nil => exact ⟨[],[],rfl,Or.inl ⟨by rw [scan_end,append_nil],by simpa using reached,Or.inl rfl⟩⟩
  | cons point rest ih =>
    by_cases there : (units before).length = target
    · exact ⟨[],point :: rest,rfl,Or.inl ⟨by rw [scan_there _ _ _ _ _ there,append_nil],by simpa using reached,
        Or.inr (by simpa using there)⟩⟩
    obtain ⟨fuel,rfl⟩ : ∃ less, fuel = less + 1 := ⟨fuel - 1,by simp at enough; omega⟩
    by_cases short : (units (before ++ [point])).length ≤ target
    · obtain ⟨passed,left,equal,outcome⟩ := ih (before ++ [point]) fuel (by simpa using enough) short
      rw [append_assoc,append_assoc,singleton_append,
        ← scan_past target cut before rest fuel short] at outcome
      exact ⟨point :: passed,left,by rw [equal,cons_append],outcome⟩
    · have single : ¬ (units before).length + (unitsOf point).length ≤ target := by simpa using short
      obtain ⟨basic,equal⟩ | ⟨above,equal⟩ := unitsOf_cases point
      · rw [equal,length_singleton] at single
        omega
      · rw [equal,length_cons,length_singleton] at single
        refine ⟨[],point :: rest,rfl,Or.inr ⟨point,rest,rfl,above,?_,_,rfl,?_⟩⟩
        · rw [append_nil]
          omega
        · rw [scan_cut target cut before rest fuel above (by omega),append_nil]

end Ant.Text.Scan
