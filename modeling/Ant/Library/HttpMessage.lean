import Ant.Library.ByteString
import Mathlib.Data.List.TakeWhile

/-! The syntax of HTTP/1.1 messages, as a receiver reads it: lines, numbers, header fields, and the chunked coding. -/
namespace Ant.Library.HttpMessage
open ByteLayout ByteString List Option

def crlf : Bytes := [13,10]

variable {base value status : Nat} {char : UInt8} {rest : Bytes} {chunks : List Bytes} {fields : List (Bytes × Bytes)}

section Numerals

def numeral (base value : Nat) : Bytes := (Nat.toDigits base value).map fun char => UInt8.ofNat char.toNat

def readDigits (base : Nat) : Nat → Bytes → Option Nat
  | value,[] => some value
  | value,char :: rest => (digit base char).bind fun next => readDigits base (value * base + next) rest

def readNumeral (base : Nat) (text : Bytes) : Option Nat := if text = [] then none else readDigits base 0 text

theorem readDigits_append (base value : Nat) (first second : Bytes) : readDigits base value (first ++ second) =
    (readDigits base value first).bind fun between => readDigits base between second := by
  induction first generalizing value with
  | nil => rfl
  | cons char rest ih =>
    simp only [cons_append,readDigits]
    cases digit base char with
    | none => rfl
    | some next => exact ih _

theorem digit_digitChar (small : value < base) (sixteen : base ≤ 16) :
    digit base (UInt8.ofNat value.digitChar.toNat) = some value := by
  have found : ∀ next < 16, ∀ limit ≤ 16, next < limit → digit limit (UInt8.ofNat next.digitChar.toNat) = some next := by
    decide
  exact found value (by omega) base sixteen small

theorem numeral_ne_nil : numeral base value ≠ [] := by
  simp [numeral]

theorem readDigits_numeral (value : Nat) (some_ : 1 < base) (sixteen : base ≤ 16) :
    readDigits base 0 (numeral base value) = some value := by
  induction value using Nat.strongRecOn with
  | ind value ih =>
    unfold numeral
    rw [Nat.toDigits_eq_if some_]
    split
    next small =>
      simp only [map_cons,map_nil,readDigits,digit_digitChar small sixteen,bind_some]
      rw [Nat.zero_mul,Nat.zero_add]
    next large =>
      have smaller : value / base < value := Nat.div_lt_self (by omega) some_
      have last : value % base < base := Nat.mod_lt _ (by omega)
      rw [map_append,readDigits_append]
      have front := ih (value / base) smaller
      unfold numeral at front
      rw [front]
      simp only [bind_some,map_cons,map_nil,readDigits,digit_digitChar last sixteen]
      rw [Nat.mul_comm,Nat.div_add_mod]

theorem readNumeral_numeral (base value : Nat) (some_ : 1 < base) (sixteen : base ≤ 16) :
    readNumeral base (numeral base value) = some value := by
  rw [readNumeral,if_neg numeral_ne_nil,readDigits_numeral value some_ sixteen]

theorem not_mem_numeral (some_ : 1 < base) (sixteen : base ≤ 16) (other : digit base char = none) :
    char ∉ numeral base value := by
  have read := readDigits_numeral value some_ sixteen
  intro member
  obtain ⟨before,after,parts⟩ := append_of_mem member
  rw [parts,readDigits_append] at read
  cases front : readDigits base 0 before <;> simp [readDigits,other] at read

end Numerals

section Lines

def readLine : Bytes → Option (Bytes × Bytes)
  | [] | [_] => none
  | first :: second :: rest =>
    if first = 13 ∧ second = 10 then some ([],rest)
    else (readLine (second :: rest)).map fun line => (first :: line.1,line.2)

theorem readLine_append (text rest : Bytes) (free : (13 : UInt8) ∉ text) : readLine (text ++ crlf ++ rest) = some (text,rest) := by
  induction text with
  | nil => rfl
  | cons first text ih =>
    obtain ⟨different,others⟩ := not_or.mp (mem_cons.not.mp free)
    obtain ⟨second,more,shape⟩ : ∃ second more, text ++ crlf ++ rest = second :: more := by
      cases text with
      | nil => exact ⟨13,10 :: rest,rfl⟩
      | cons second text => exact ⟨second,text ++ crlf ++ rest,rfl⟩
    have later := ih others
    rw [cons_append,cons_append,shape,readLine,if_neg fun both => different both.1.symm,← shape,later]
    rfl

end Lines

section Chunked

def chunkSize (line : Bytes) : Option Nat := readNumeral 16 (line.takeWhile fun char => char != 59 && char != 32 && char != 9)

def skipTrailers : Nat → Bytes → Option Bytes
  | 0,_ => none
  | fuel + 1,text => match readLine text with
    | none => none
    | some ([],rest) => some rest
    | some (_,rest) => skipTrailers fuel rest

/-- The body that a chunked message holds and what follows it; nothing when the message is cut short or malformed. -/
def decodeFrom : Nat → Bytes → Option (Bytes × Bytes)
  | 0,_ => none
  | fuel + 1,text => do
    let (line,rest) ← readLine text
    let size ← chunkSize line
    if size = 0 then
      let after ← skipTrailers fuel.succ rest
      pure ([],after)
    else if (rest.drop size).take 2 = crlf then
      let (body,after) ← decodeFrom fuel (rest.drop (size + 2))
      pure (rest.take size ++ body,after)
    else none

def decodeChunked (text : Bytes) : Option (Bytes × Bytes) := decodeFrom text.length text

def encodeChunk (data : Bytes) : Bytes := numeral 16 data.length ++ crlf ++ data ++ crlf

def lastChunk : Bytes := numeral 16 0 ++ crlf ++ crlf

theorem chunkSize_numeral (value : Nat) : chunkSize (numeral 16 value) = some value := by
  have whole : (numeral 16 value).takeWhile (fun char => char != 59 && char != 32 && char != 9) = numeral 16 value := by
    rw [takeWhile_eq_self_iff]
    intro char member
    have digits : ∀ other, digit 16 other = none → char ≠ other := fun other none_ same =>
      not_mem_numeral (by decide) (by decide) none_ (same ▸ member)
    simp [digits 59 (by decide),digits 32 (by decide),digits 9 (by decide)]
  rw [chunkSize,whole,readNumeral_numeral 16 value (by decide) (by decide)]

theorem readLine_size (value : Nat) (rest : Bytes) : readLine (numeral 16 value ++ crlf ++ rest) = some (numeral 16 value,rest) :=
  readLine_append _ rest (not_mem_numeral (by decide) (by decide) (by decide))

theorem decodeFrom_chunk (fuel : Nat) (data rest : Bytes) (full : data ≠ []) : decodeFrom (fuel + 1) (encodeChunk data ++ rest) =
    (decodeFrom fuel rest).map fun decoded => (data ++ decoded.1,decoded.2) := by
  have size : data.length ≠ 0 := by simpa using full
  have shape : encodeChunk data ++ rest = numeral 16 data.length ++ crlf ++ (data ++ (crlf ++ rest)) := by
    simp [encodeChunk]
  have after : (data ++ (crlf ++ rest)).drop (data.length + 2) = rest := by
    rw [← drop_drop,drop_left]
    rfl
  rw [decodeFrom,shape,readLine_size]
  simp only [bind_eq_bind,bind_some,chunkSize_numeral,if_neg size,drop_left,take_left,after]
  cases decodeFrom fuel rest <;> rfl

theorem decodeFrom_last {fuel : Nat} : decodeFrom (fuel + 1) (lastChunk ++ rest) = some ([],rest) := by
  have shape : lastChunk ++ rest = numeral 16 0 ++ crlf ++ (crlf ++ rest) := by simp [lastChunk]
  rfl

theorem decodeFrom_chunks (full : ∀ data ∈ chunks, data ≠ []) (fuel : Nat) (rest : Bytes) :
    decodeFrom (chunks.length + fuel + 1) (chunks.flatMap encodeChunk ++ lastChunk ++ rest) = some (chunks.flatten,rest) := by
  induction chunks with
  | nil => exact decodeFrom_last
  | cons data chunks ih =>
    have count : (data :: chunks).length + fuel + 1 = (chunks.length + fuel + 1) + 1 := by
      rw [length_cons]
      omega
    rw [count,flatMap_cons,append_assoc,append_assoc,decodeFrom_chunk _ _ _ (full data mem_cons_self),
      ← append_assoc,ih fun other member => full other (mem_cons_of_mem _ member)]
    rfl

theorem decodeChunked_chunks (full : ∀ data ∈ chunks, data ≠ []) (rest : Bytes) :
    decodeChunked (chunks.flatMap encodeChunk ++ lastChunk ++ rest) = some (chunks.flatten,rest) := by
  have long : chunks.length ≤ (chunks.flatMap encodeChunk).length := by
    induction chunks with
    | nil => exact Nat.le_refl _
    | cons data chunks ih =>
      have later := ih fun other member => full other (mem_cons_of_mem _ member)
      simp only [flatMap_cons,length_append,length_cons,encodeChunk,crlf]
      omega
  obtain ⟨fuel,enough⟩ : ∃ fuel, (chunks.flatMap encodeChunk ++ lastChunk ++ rest).length = chunks.length + fuel + 1 := by
    refine ⟨(chunks.flatMap encodeChunk ++ lastChunk ++ rest).length - chunks.length - 1,?_⟩
    have last : lastChunk.length = 5 := rfl
    simp only [length_append]
    omega
  rw [decodeChunked,enough,decodeFrom_chunks full]

end Chunked

section Heads

def isToken (char : UInt8) : Bool :=
  48 ≤ char && char ≤ 57 || 65 ≤ char && char ≤ 90 || 97 ≤ char && char ≤ 122 || (ascii "!#$%&'*+-.^_`|~").contains char

def isBlank (char : UInt8) : Bool := char = 32 || char = 9

def trimBlanks (text : Bytes) : Bytes := ((text.dropWhile isBlank).reverse.dropWhile isBlank).reverse

def readField (line : Bytes) : Option (Bytes × Bytes) :=
  let name := line.takeWhile (· != 58)
  match line.drop name.length with
  | [] => none
  | _ :: value => if name ≠ [] ∧ name.all isToken then some (name,trimBlanks value) else none

def readFields : Nat → Bytes → Option (List (Bytes × Bytes) × Bytes)
  | 0,_ => none
  | fuel + 1,text => match readLine text with
    | none => none
    | some ([],rest) => some ([],rest)
    | some (line,rest) => do
      let field ← readField line
      let (fields,after) ← readFields fuel rest
      pure (field :: fields,after)

structure ResponseHead where
  status : Nat
  reason : Bytes
  fields : List (Bytes × Bytes)
  deriving DecidableEq,Repr

def readStatusLine (line : Bytes) : Option (Nat × Bytes) :=
  match line.splitAt 9 with
  | (version,rest) =>
    if version = ascii "HTTP/1.1 " ∧ (rest.drop 3).head? = some 32 then
      (readNumeral 10 (rest.take 3)).map fun status => (status,rest.drop 4)
    else none

def readResponseHead (text : Bytes) : Option (ResponseHead × Bytes) := do
  let (line,rest) ← readLine text
  let (status,reason) ← readStatusLine line
  let (fields,after) ← readFields rest.length rest
  pure (⟨status,reason,fields⟩,after)

def fieldLine (field : Bytes × Bytes) : Bytes := field.1 ++ ascii ": " ++ field.2 ++ crlf

def FieldSafe (field : Bytes × Bytes) : Prop := field.1 ≠ [] ∧ field.1.all isToken = true ∧ (13 : UInt8) ∉ field.2

theorem trimBlanks_free {text : Bytes} (free : ∀ char ∈ text, isBlank char = false) : trimBlanks text = text := by
  have kept : ∀ other : Bytes, (∀ char ∈ other, isBlank char = false) → other.dropWhile isBlank = other := by
    intro other known
    cases other with
    | nil => rfl
    | cons char other => rw [dropWhile_cons,known char mem_cons_self,if_neg Bool.false_ne_true]
  rw [trimBlanks,kept text free,kept text.reverse fun char member => free char (mem_reverse.mp member),reverse_reverse]

theorem not_mem_of_isToken {name : Bytes} (token : name.all isToken = true) (other : isToken char = false) :
    char ∉ name := by
  intro member
  have known := all_eq_true.mp token char member
  simp [other] at known

theorem readField_line (name value : Bytes) (some_ : name ≠ []) (token : name.all isToken = true) :
    readField (name ++ ascii ": " ++ value) = some (name,trimBlanks value) := by
  have free : ∀ char ∈ name, (char != 58) = true := by
    intro char member
    rw [bne_iff_ne]
    rintro rfl
    exact not_mem_of_isToken token (by decide) member
  have taken : (name ++ ascii ": " ++ value).takeWhile (· != 58) = name := by
    rw [append_assoc,takeWhile_append_of_pos free]
    simp [ascii]
  simp only [readField,taken]
  rw [append_assoc,drop_left]
  exact if_pos ⟨some_,token⟩

theorem readFields_line (fuel : Nat) {field : Bytes × Bytes} (rest : Bytes) (safe : FieldSafe field) :
    readFields (fuel + 1) (fieldLine field ++ rest) =
      (readFields fuel rest).map fun read => ((field.1,trimBlanks field.2) :: read.1,read.2) := by
  obtain ⟨name,value⟩ := field
  obtain ⟨some_,token,free⟩ := safe
  have line : readLine (fieldLine (name,value) ++ rest) = some (name ++ ascii ": " ++ value,rest) := by
    refine readLine_append _ rest ?_
    simp only [mem_append,not_or]
    exact ⟨⟨not_mem_of_isToken token (by decide),by decide⟩,free⟩
  rw [readFields,line]
  split
  next none_ => cases none_
  next blank =>
    cases name with
    | nil => exact absurd rfl some_
    | cons char name => simp at blank
  next found =>
    cases found
    simp only [readField_line name value some_ token]
    cases readFields fuel rest <;> rfl

theorem readFields_lines (safe : ∀ field ∈ fields, FieldSafe field) (fuel : Nat) (rest : Bytes) :
    readFields (fields.length + fuel + 1) (fields.flatMap fieldLine ++ (crlf ++ rest)) =
      some (fields.map fun field => (field.1,trimBlanks field.2),rest) := by
  induction fields with
  | nil =>
    rfl
  | cons field fields ih =>
    have count : (field :: fields).length + fuel + 1 = (fields.length + fuel + 1) + 1 := by
      rw [length_cons]
      omega
    rw [count,flatMap_cons,append_assoc,readFields_line _ _ (safe field mem_cons_self),
      ih fun other member => safe other (mem_cons_of_mem _ member)]
    rfl

def statusLine (status : Nat) (reason : Bytes) : Bytes := ascii "HTTP/1.1 " ++ numeral 10 status ++ ascii " " ++ reason

theorem numeral_three (low : 100 ≤ status) (high : status ≤ 999) : (numeral 10 status).length = 3 := by
  have most := (Nat.length_toDigits_le_iff (b := 10) (n := status) (k := 3) (by decide) (by decide)).mpr (by omega)
  have least : ¬ (Nat.toDigits 10 status).length ≤ 2 := fun short => by
    have small := (Nat.length_toDigits_le_iff (b := 10) (n := status) (k := 2) (by decide) (by decide)).mp short
    omega
  rw [numeral,length_map]
  omega

theorem readStatusLine_line (reason : Bytes) (low : 100 ≤ status) (high : status ≤ 999) :
    readStatusLine (statusLine status reason) = some (status,reason) := by
  have three := numeral_three low high
  have shape : statusLine status reason = ascii "HTTP/1.1 " ++ (numeral 10 status ++ (ascii " " ++ reason)) := by
    simp [statusLine]
  have after : (numeral 10 status ++ (ascii " " ++ reason)).drop 3 = ascii " " ++ reason := by
    rw [← three,drop_left]
  have rest : (numeral 10 status ++ (ascii " " ++ reason)).drop 4 = reason := by
    have more := congrArg (List.drop 1) after
    rw [drop_drop] at more
    exact more
  have digits : (numeral 10 status ++ (ascii " " ++ reason)).take 3 = numeral 10 status := by
    rw [← three,take_left]
  have version : (ascii "HTTP/1.1 ").length = 9 := by decide
  rw [readStatusLine,shape,splitAt_eq,← version,take_left,drop_left]
  simp only [after,rest,digits]
  rw [readNumeral_numeral 10 status (by decide) (by decide)]
  rfl

theorem readResponseHead_lines {reason : Bytes} (low : 100 ≤ status) (high : status ≤ 999) (line : (13 : UInt8) ∉ reason)
    (safe : ∀ field ∈ fields, FieldSafe field) :
    readResponseHead (statusLine status reason ++ crlf ++ (fields.flatMap fieldLine ++ (crlf ++ rest))) =
      some (⟨status,reason,fields.map fun field => (field.1,trimBlanks field.2)⟩,rest) := by
  have oneLine : (13 : UInt8) ∉ statusLine status reason := by
    simp only [statusLine,mem_append,not_or]
    exact ⟨⟨⟨by decide,not_mem_numeral (by decide) (by decide) (by decide)⟩,by decide⟩,line⟩
  have long : fields.length ≤ (fields.flatMap fieldLine).length := by
    clear safe
    induction fields with
    | nil => exact Nat.le_refl _
    | cons field fields ih =>
      simp only [flatMap_cons,length_append,length_cons,fieldLine,crlf]
      omega
  obtain ⟨fuel,enough⟩ : ∃ fuel, (fields.flatMap fieldLine ++ (crlf ++ rest)).length = fields.length + fuel + 1 := by
    refine ⟨(fields.flatMap fieldLine ++ (crlf ++ rest)).length - fields.length - 1,?_⟩
    simp only [length_append,crlf,length_cons]
    omega
  rw [readResponseHead,readLine_append _ _ oneLine]
  simp only [bind_eq_bind,bind_some,readStatusLine_line reason low high]
  rw [enough,readFields_lines safe]
  rfl

end Heads

section Bodies

/-- Where a message ends, as its head says. -/
inductive BodyLength where
  | chunked
  | sized (size : Nat)
  | untilClose
  | invalid
  deriving DecidableEq,Repr

def valuesOf (name : Bytes) (fields : List (Bytes × Bytes)) : List Bytes :=
  (fields.filter fun field => field.1.map toLower = name).map Prod.snd

def codings (values : List Bytes) : List Bytes :=
  (values.flatMap (ByteString.split 44)).map fun coding => (trimBlanks coding).map toLower

/-- A transfer coding comes before a length; the chunked coding is applied last and once. -/
def bodyLength (fields : List (Bytes × Bytes)) : BodyLength :=
  match (codings (valuesOf (ascii "transfer-encoding") fields)).reverse with
  | coding :: others =>
    if others.contains (ascii "chunked") then .invalid else if coding = ascii "chunked" then .chunked else .untilClose
  | [] =>
    match valuesOf (ascii "content-length") fields with
    | [] => .untilClose
    | value :: others => if others.all (· = value) then (readNumeral 10 value).elim .invalid .sized else .invalid

/-- A response with this status, or to this method, has no body, whatever its head says. -/
def bodiless (method : Bytes) (status : Nat) : Bool :=
  method = ascii "HEAD" || 100 ≤ status && status < 200 || status = 204 || status = 304

/-- The body that follows the head, and what follows the body. -/
def readBody (method : Bytes) (head : ResponseHead) (text : Bytes) : Option (Bytes × Bytes) :=
  if bodiless method head.status then some ([],text)
  else match bodyLength head.fields with
    | .chunked => decodeChunked text
    | .sized size => if size ≤ text.length then some (text.splitAt size) else none
    | .untilClose => some (text,[])
    | .invalid => none

/-- A client reads the response to its request: the head, the body, and what follows them on the connection. -/
def readResponse (method text : Bytes) : Option (ResponseHead × Bytes × Bytes) := do
  let (head,rest) ← readResponseHead text
  let (body,after) ← readBody method head rest
  pure (head,body,after)

theorem valuesOf_append (name : Bytes) (first second : List (Bytes × Bytes)) :
    valuesOf name (first ++ second) = valuesOf name first ++ valuesOf name second := by
  rw [valuesOf,filter_append,map_append]
  rfl

theorem valuesOf_eq_nil {name : Bytes} (other : ∀ field ∈ fields, field.1.map toLower ≠ name) : valuesOf name fields = [] := by
  have none_ : fields.filter (fun field => field.1.map toLower = name) = [] :=
    filter_eq_nil_iff.mpr fun field member => by simpa using other field member
  rw [valuesOf,none_]
  rfl

theorem readBody_sized {method : Bytes} {head : ResponseHead} {body : Bytes} (wanted : bodiless method head.status = false)
    (length : bodyLength head.fields = .sized body.length) (rest : Bytes) :
    readBody method head (body ++ rest) = some (body,rest) := by
  have long : body.length ≤ (body ++ rest).length := by
    rw [length_append]
    exact Nat.le_add_right ..
  simp only [readBody,wanted,length,Bool.false_eq_true,if_false,if_pos long,splitAt_eq,take_left,drop_left]

end Bodies

end Ant.Library.HttpMessage
