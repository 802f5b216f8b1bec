import Ant.Library.Transition
import Ant.Sandbox.NatTcp

/-! The guest's stream on its way to the host socket: the condition under which it arrives whole and in
order, as an invariant of runs. -/
namespace Ant.Sandbox.NatStream
open Library.Transition NatTcp List

section Steps
variable {stream : Bytes} (iss : Nat)

def received (w : World) : Bytes := w.written ++ w.c.pending

def takes : List Write → Nat → Bool
  | _,0 => true
  | [],_ => false
  | .wrote more :: outcomes,count => takes outcomes (count - (more + 1))
  | .interrupted :: outcomes,count => takes outcomes count
  | _,_ => false

/-- Data is taken in order and with room, or it is a repetition that is not taken; the end comes when
everything before it is with the socket, at the latest by the writes of its own segment; and the host ends
when nothing is pending. -/
def Fair (w : World) : Input stream → Prop
  | .segment s _ _ memory outcomes => w.c.known = true → w.c.guestFinSeen = false →
    (s.length ≠ 0 → if w.c.fd then s.offset = (received w).length ∧ memory = true ∧ s.length ≤ streamBufferLimit - w.c.pending.length
      else s.offset + s.length ≤ (received w).length) ∧
    (s.fin = true → if w.c.fd && s.length ≠ 0 then w.c.state ≠ .connectingHost ∧ takes outcomes (w.c.pending.length + s.length) = true
      else w.written.length = stream.length)
  | .readable outcomes => w.c.pending = [] ∨ .eof ∉ outcomes
  | _ => True

/-- What is claimed of a moment: the bytes written begin the stream, those written or pending hold every
byte acknowledged while the connection stands, the shutdown came after the last byte, and the numbers
stand for the places. -/
structure Sound (stream : Bytes) (w : World) : Prop where
  written : w.written <+: stream
  acknowledged : w.c.known = true → stream.take w.acknowledged <+: received w
  shut : w.shut = true → w.written = stream
  numbers : w.c.known = true → w.synced = true → w.c.guestNext = seqOf iss w.covered

structure Inv (stream : Bytes) (w : World) : Prop where
  arrived : received w <+: stream
  covered : w.c.known = true → stream.take w.covered <+: received w
  acknowledged : w.c.known = true → stream.take w.acknowledged <+: received w
  ended : w.c.known = true → w.c.guestFinSeen = true → w.written = stream
  shut : w.shut = true → w.written = stream
  numbers : w.c.known = true → w.synced = true → w.c.guestNext = seqOf iss w.covered
  forgotten : w.c.known = false → w.c.fd = false ∧ w.c.pending = []

structure SameSide (c later : Connection) : Prop where
  state : later.state = c.state
  known : later.known = c.known
  fd : later.fd = c.fd
  guestNext : later.guestNext = c.guestNext
  guestFinSeen : later.guestFinSeen = c.guestFinSeen
  pending : later.pending = c.pending

theorem SameSide.trans {one two three : Connection} (first : SameSide one two) (second : SameSide two three) : SameSide one three :=
  ⟨second.state.trans first.state,second.known.trans first.known,second.fd.trans first.fd,second.guestNext.trans first.guestNext,
    second.guestFinSeen.trans first.guestFinSeen,second.pending.trans first.pending⟩

/-- Steps of the other direction: packets are sent, and each may acknowledge what is covered. -/
structure Quiet (w later : World) : Prop where
  written : later.written = w.written
  shut : later.shut = w.shut
  synced : later.synced = w.synced
  covered : later.covered = w.covered
  side : SameSide w.c later.c
  acks : later.acknowledged = w.acknowledged ∨ later.acknowledged = max w.acknowledged w.covered

theorem Quiet.numbers (w : World) (c : Connection) (side : SameSide w.c c) : Quiet w {w with c := c} :=
  ⟨rfl,rfl,rfl,rfl,side,.inl rfl⟩

theorem Quiet.refl (w : World) : Quiet w w := .numbers w w.c ⟨rfl,rfl,rfl,rfl,rfl,rfl⟩

theorem Quiet.trans {first second third : World} (one : Quiet first second) (two : Quiet second third) : Quiet first third := by
  refine ⟨two.written.trans one.written,two.shut.trans one.shut,two.synced.trans one.synced,two.covered.trans one.covered,
    one.side.trans two.side,?_⟩
  have covered := one.covered
  rcases two.acks with same | more
  · rw [same]
    exact one.acks
  · rw [more,covered]
    rcases one.acks with same | before
    · exact .inr (by rw [same])
    · exact .inr (by rw [before]; omega)

theorem sendAck_quiet (w : World) : Quiet w (sendAck w) := by
  unfold sendAck
  split
  · exact ⟨rfl,rfl,rfl,rfl,⟨rfl,rfl,rfl,rfl,rfl,rfl⟩,.inr rfl⟩
  · exact .refl w

theorem sendAck_numbers {w : World} {c : Connection} (side : SameSide w.c c) : Quiet w {sendAck w with c := c} :=
  (sendAck_quiet w).trans (.numbers _ c (by rw [show (sendAck w).c = w.c by unfold sendAck; split <;> rfl]; exact side))

theorem dropGuestAcked_side {c : Connection} : SameSide c (dropGuestAcked c) := by
  unfold dropGuestAcked
  split
  · exact ⟨rfl,rfl,rfl,rfl,rfl,rfl⟩
  · split
    · exact ⟨rfl,rfl,rfl,rfl,rfl,rfl⟩
    · dsimp only
      split
      · exact ⟨rfl,rfl,rfl,rfl,rfl,rfl⟩
      · exact ⟨rfl,rfl,rfl,rfl,rfl,rfl⟩

theorem sendChunks_quiet {fuel : Nat} (w : World) : Quiet w (sendChunks fuel w) := by
  induction fuel generalizing w with
  | zero => exact .refl w
  | succ fuel ih =>
    unfold sendChunks
    dsimp only
    split
    · refine Quiet.trans ?_ (ih _)
      exact sendAck_numbers ⟨rfl,rfl,rfl,rfl,rfl,rfl⟩
    · exact .refl w

theorem sendHostBuffer_quiet {w : World} : Quiet w (sendHostBuffer w) := by
  have sent : Quiet w (sendChunks (dropGuestAcked w.c).hostLen {w with c := dropGuestAcked w.c}) :=
    (Quiet.numbers w _ dropGuestAcked_side).trans (sendChunks_quiet _)
  unfold sendHostBuffer
  dsimp only
  split
  · exact sent.trans (sendAck_numbers ⟨rfl,rfl,rfl,rfl,rfl,rfl⟩)
  · exact sent

theorem takeAck_quiet (ack : Option Nat) (window : Nat) (w : World) : Quiet w (takeAck ack window w) := by
  unfold takeAck
  cases ack with
  | none => exact .numbers w _ ⟨rfl,rfl,rfl,rfl,rfl,rfl⟩
  | some number =>
    dsimp only
    split
    · refine Quiet.trans ?_ sendHostBuffer_quiet
      refine .numbers w _ (SameSide.trans ?_ dropGuestAcked_side)
      exact ⟨rfl,rfl,rfl,rfl,rfl,rfl⟩
    · exact .numbers w _ ⟨rfl,rfl,rfl,rfl,rfl,rfl⟩

theorem received_writeSome (count : Nat) (w : World) : received (writeSome count w) = received w := by
  simp only [received,writeSome,append_assoc,take_append_drop]

section Invariant
variable {iss} {w : World}

theorem take_max_prefix {α : Type} {whole part : List α} {a b : Nat} (one : whole.take a <+: part) (two : whole.take b <+: part) :
    whole.take (max a b) <+: part := by
  rcases Nat.le_total a b with less | less
  · rwa [Nat.max_eq_right less]
  · rwa [Nat.max_eq_left less]

section
variable (inv : Inv iss stream w)
include inv

theorem Inv.quiet {later : World} (quiet : Quiet w later) : Inv iss stream later := by
  obtain ⟨written,shut,synced,covered,⟨state,known,fd,next,fin,pending⟩,acks⟩ := quiet
  have same : received later = received w := by simp only [received,written,pending]
  refine ⟨same ▸ inv.arrived,?_,?_,?_,?_,?_,?_⟩
  · rw [known,covered,same]
    exact inv.covered
  · rw [known,same]
    intro here
    rcases acks with equal | more
    · rw [equal]
      exact inv.acknowledged here
    · rw [more]
      exact take_max_prefix (inv.acknowledged here) (inv.covered here)
  · rw [known,fin,written]
    exact inv.ended
  · rw [shut,written]
    exact inv.shut
  · rw [known,synced,next,covered]
    exact inv.numbers
  · rw [known,fd,pending]
    exact inv.forgotten

theorem Inv.written_prefix : w.written <+: stream := (prefix_append _ _).trans inv.arrived

theorem Inv.closeTcp : Inv iss stream (closeTcp w) := by
  refine ⟨?_,?_,?_,?_,inv.shut,?_,?_⟩
  · simpa [received,NatTcp.closeTcp,Connection.zero] using inv.written_prefix
  all_goals simp [NatTcp.closeTcp,Connection.zero]

theorem Inv.pending_nil (all : w.written = stream) : w.c.pending = [] := by
  have short := inv.arrived.length_le
  rw [received,all,length_append] at short
  exact eq_nil_of_length_eq_zero (by omega)

theorem Inv.flush (outcomes : List Write) : Inv iss stream (flushPending outcomes w) := by
  induction outcomes generalizing w with
  | nil => exact inv
  | cons outcome outcomes ih =>
    unfold flushPending
    split
    · next going =>
      simp only [Bool.and_eq_true,decide_eq_true_eq] at going
      cases outcome with
      | interrupted => exact ih inv
      | wouldBlock => exact inv
      | failed => exact inv.closeTcp
      | wrote more =>
        refine ih ?_
        have same := received_writeSome (more + 1) w
        have unfinished : w.written ≠ stream := fun all => going.1.2 (inv.pending_nil all)
        refine ⟨same ▸ inv.arrived,?_,?_,?_,?_,inv.numbers,?_⟩
        · rw [same]
          exact inv.covered
        · rw [same]
          exact inv.acknowledged
        · exact fun known fin => absurd (inv.ended known fin) unfinished
        · exact fun shut => absurd (inv.shut shut) unfinished
        · exact fun unknown => absurd (inv.forgotten unknown).2 going.1.2
    · exact inv

end

theorem flushPending_all {outcomes : List Write} (w : World) (fd : w.c.fd = true) (connected : w.c.state ≠ .connectingHost)
    (all : takes outcomes w.c.pending.length = true) :
    flushPending outcomes w = {w with written := w.written ++ w.c.pending, c := {w.c with pending := []}} := by
  induction outcomes generalizing w with
  | nil =>
    have none : w.c.pending = [] := by
      cases pending : w.c.pending with
      | nil => rfl
      | cons byte rest => simp [takes,pending] at all
    simp only [flushPending,append_nil]
    cases w with
    | mk c written shut synced covered acknowledged =>
      cases c
      simp_all
  | cons outcome outcomes ih =>
    by_cases none : w.c.pending = []
    · unfold flushPending
      cases w with
      | mk c written shut synced covered acknowledged =>
        cases c
        simp_all
    · have positive : w.c.pending.length ≠ 0 := by simpa using none
      obtain ⟨count,size⟩ := Nat.exists_eq_succ_of_ne_zero positive
      unfold flushPending
      rw [if_pos (by simp [fd,none,connected])]
      rw [size] at all
      cases outcome with
      | wouldBlock => exact absurd all (by simp [takes])
      | failed => exact absurd all (by simp [takes])
      | interrupted => exact ih w fd connected (by rw [size]; simpa [takes] using all)
      | wrote more =>
        have left : takes outcomes (writeSome (more + 1) w).c.pending.length = true := by
          simpa [takes,writeSome,size] using all
        refine (ih (writeSome (more + 1) w) fd connected left).trans ?_
        simp [writeSome]

theorem Inv.fromHost (inv : Inv iss stream w) {outcomes : List Read} (fair : w.c.pending = [] ∨ .eof ∉ outcomes) :
    Inv iss stream (tcpFromHost outcomes w) := by
  induction outcomes generalizing w with
  | nil => exact inv
  | cons outcome outcomes ih =>
    have rest : w.c.pending = [] ∨ .eof ∉ outcomes := fair.imp id fun absent member => absent (mem_cons_of_mem _ member)
    unfold tcpFromHost
    split
    · exact inv
    · cases outcome with
      | data more =>
        have based := Quiet.numbers w {w.c with
          hostBase := if w.c.hostLen = 0 && w.c.hostSent = 0 then w.c.natNext else w.c.hostBase, hostLen := w.c.hostLen + more + 1}
          ⟨rfl,rfl,rfl,rfl,rfl,rfl⟩
        have sent := based.trans sendHostBuffer_quiet
        refine ih (inv.quiet sent) ?_
        rw [sent.side.pending]
        exact rest
      | eof =>
        have empty : w.c.pending = [] := fair.resolve_right fun absent => absent (mem_cons_self ..)
        have same : received (closeFd {w with c := {w.c with hostEof := true}}) = received w := by simp [received,closeFd,empty]
        refine Inv.quiet ?_ sendHostBuffer_quiet
        refine ⟨same ▸ inv.arrived,?_,?_,inv.ended,inv.shut,inv.numbers,fun _ => ⟨rfl,rfl⟩⟩
        · rw [same]
          exact inv.covered
        · rw [same]
          exact inv.acknowledged
      | interrupted => exact ih inv rest
      | wouldBlock => exact inv
      | failed => exact inv.closeTcp

theorem seqOf_add (place length : Nat) : (seqOf iss place + length) % 2^32 = seqOf iss (place + length) := by
  simp only [seqOf]
  omega

theorem Inv.expect (inv : Inv iss stream w) (next place : Nat) (number : next = seqOf iss place)
    (inside : w.c.known = true → stream.take place <+: received w) : Inv iss stream (expect next place w) :=
  ⟨inv.arrived,inside,inv.acknowledged,inv.ended,inv.shut,fun _ _ => number,inv.forgotten⟩

theorem take_prefix_of_length_le {α : Type} {part whole : List α} (begins : part <+: whole) {count : Nat} (short : count ≤ part.length) :
    whole.take count <+: part := by
  rw [prefix_iff_eq_take.mp begins,prefix_take_iff]
  exact ⟨ take_prefix _ _,by simp; omega⟩

theorem received_payload (s : Segment stream) (arrived : received w <+: stream) (next : s.offset = (received w).length) :
    received w ++ payload s = stream.take (s.offset + s.length) := by
  have start : received w = stream.take s.offset := by
    rw [next]
    exact prefix_iff_eq_take.mp arrived
  rw [payload,take_add,← start]

theorem length_payload (s : Segment stream) : (payload s).length = s.length := by
  have inside := s.inside
  simp only [payload,length_take,length_drop]
  omega

variable (iss) in
def appended (s : Segment stream) (w : World) : World :=
  let expecting := expectEnd iss s w
  {expecting with c := {expecting.c with pending := expecting.c.pending ++ payload s}}

theorem Inv.append (inv : Inv iss stream w) (s : Segment stream) (known : w.c.known = true) (open' : w.c.guestFinSeen = false)
    (next : s.offset = (received w).length) : Inv iss stream (appended iss s w) := by
  have whole : received (appended iss s w) = stream.take (s.offset + s.length) := by
    rw [← received_payload s inv.arrived next]
    simp [received,appended,expectEnd,NatTcp.expect]
  have more : received w <+: received (appended iss s w) := by
    rw [whole,← received_payload s inv.arrived next]
    exact prefix_append _ _
  refine ⟨?_,?_,?_,?_,inv.shut,?_,?_⟩
  · rw [whole]
    exact take_prefix _ _
  · intro _
    rw [whole]
    exact prefix_refl _
  · intro _
    exact (inv.acknowledged known).trans more
  · intro _ fin
    exact absurd (open'.symm.trans fin) (by simp)
  · intro _ _
    exact seqOf_add s.offset s.length
  · intro unknown
    exact absurd (known.symm.trans unknown) (by simp)

theorem Inv.data (inv : Inv iss stream w) (known : w.c.known = true) (s : Segment stream) (memory : Bool) (outcomes : List Write)
    (fair : w.c.guestFinSeen = false → s.length ≠ 0 →
      if w.c.fd then s.offset = (received w).length ∧ memory = true ∧ s.length ≤ streamBufferLimit - w.c.pending.length
      else s.offset + s.length ≤ (received w).length) :
    ∃ taken, takeData iss s memory outcomes w = some taken ∧ Inv iss stream taken ∧
      (taken = w ∧ s.length = 0 ∨ taken = flushPending outcomes (sendAck (appended iss s w)) ∧ s.length ≠ 0 ∧
          w.c.fd = true ∧ w.c.guestFinSeen = false ∨
        taken = flushPending outcomes (sendAck (expectEnd iss s w)) ∧ (w.c.fd = false ∨ w.c.guestFinSeen = true)) := by
  unfold takeData
  split
  · next empty => exact ⟨w,rfl,inv,.inl ⟨rfl,empty⟩⟩
  · next nonempty =>
    dsimp only
    split
    · next taking =>
      simp only [Bool.and_eq_true,Bool.not_eq_true'] at taking
      have order := fair taking.2 nonempty
      rw [if_pos taking.1] at order
      obtain ⟨next,allocated,room⟩ := order
      have fits : appendPending (expectEnd iss s w).c memory (payload s) = some (appended iss s w).c := by
        have small : ¬ streamBufferLimit - (expectEnd iss s w).c.pending.length < (payload s).length := by
          rw [length_payload]
          exact Nat.not_lt_of_le room
        simp [appendPending,allocated,small,appended]
      rw [fits]
      refine ⟨_,rfl,((inv.append s known taking.2 next).quiet (sendAck_quiet _)).flush outcomes,.inr (.inl ⟨rfl,nonempty,taking⟩)⟩
    · next passing =>
      have passing : w.c.fd = false ∨ w.c.guestFinSeen = true := by
        cases fd : w.c.fd <;> cases fin : w.c.guestFinSeen <;> simp_all
      refine ⟨_,rfl,((inv.expect _ _ (seqOf_add ..) fun _ => ?_).quiet (sendAck_quiet _)).flush outcomes,.inr (.inr ⟨rfl,passing⟩)⟩
      apply take_prefix_of_length_le inv.arrived
      cases fin : w.c.guestFinSeen with
      | true =>
        have all := inv.ended known fin
        have inside := s.inside
        have nothing := inv.pending_nil all
        rw [received,all,nothing,append_nil]
        exact inside
      | false =>
        have closed := passing.resolve_right (by simp [fin])
        simpa [closed] using fair fin nonempty

theorem expectFin_fields (s : Segment stream) (w : World) :
    (expectFin iss s w).written = w.written ∧ (expectFin iss s w).c.known = w.c.known := by
  unfold expectFin
  dsimp only
  split <;> exact ⟨rfl,rfl⟩

theorem Inv.expectFin (inv : Inv iss stream w) (s : Segment stream) (all : w.c.known = true → w.written = stream) :
    Inv iss stream (expectFin iss s w) := by
  unfold NatTcp.expectFin
  dsimp only
  split
  · refine inv.expect _ _ (seqOf_add s.offset (s.length + 1)) fun known => ?_
    rw [received,all known]
    exact ( take_prefix _ _).trans (prefix_append _ _)
  · exact inv

theorem Inv.fin (inv : Inv iss stream w) (s : Segment stream) (all : s.fin = true → w.c.known = true → w.written = stream) :
    Inv iss stream (takeFin iss s w) := by
  unfold takeFin
  split
  · next fin =>
    dsimp only
    have expecting := inv.expectFin s (all fin)
    obtain ⟨written,known⟩ : (NatTcp.expectFin iss s w).written = w.written ∧ _ := expectFin_fields s w
    have ended : Inv iss stream {NatTcp.expectFin iss s w with
        c := {(NatTcp.expectFin iss s w).c with guestFinSeen := true, state := .halfClosed}, shut := w.shut || w.c.fd} := by
      refine ⟨expecting.arrived,expecting.covered,expecting.acknowledged,?_,?_,expecting.numbers,expecting.forgotten⟩
      · intro here _
        exact written.trans (all fin (known ▸ here))
      · intro shut
        refine written.trans ?_
        rcases Bool.or_eq_true_iff.mp shut with before | fd
        · exact inv.shut before
        · cases here : w.c.known with
          | true => exact all fin here
          | false => exact absurd fd (by simp [(inv.forgotten here).1])
    split
    · exact (ended.quiet (sendAck_quiet _)).closeTcp
    · exact ended.quiet (sendAck_quiet _)
  · split
    · exact inv.closeTcp
    · exact inv

theorem flushPending_idle (outcomes : List Write) (w : World) (idle : w.c.fd = false ∨ w.c.pending = []) : flushPending outcomes w = w := by
  cases outcomes with
  | nil => rfl
  | cons outcome outcomes =>
    unfold flushPending
    rcases idle with closed | empty
    · simp [closed]
    · simp [empty]

section
variable (inv : Inv iss stream w)
include inv

theorem Inv.written_all (long : w.written.length = stream.length) : w.written = stream :=
  inv.written_prefix.eq_of_length long

theorem Inv.segment (s : Segment stream) (ack : Option Nat) (window : Nat) (memory : Bool) (outcomes : List Write)
    (known : w.c.known = true) (fair : Fair w (.segment s ack window memory outcomes)) :
    Inv iss stream (handleTcp iss s ack window memory outcomes w) := by
  have quiet := takeAck_quiet ack window w
  have acked := inv.quiet quiet
  have fairAcked : Fair (takeAck ack window w) (.segment s ack window memory outcomes) := by
    have same : received (takeAck ack window w) = received w := by simp only [received,quiet.written,quiet.side.pending]
    unfold Fair at fair ⊢
    rw [quiet.side.known,quiet.side.guestFinSeen,quiet.side.fd,quiet.side.pending,quiet.side.state,quiet.written,same]
    exact fair
  have here : (takeAck ack window w).c.known = true := quiet.side.known.trans known
  unfold handleTcp
  dsimp only
  generalize takeAck ack window w = w at acked fairAcked here ⊢
  obtain ⟨taken,took,inv,shape⟩ := acked.data here s memory outcomes fun unfinished => (fairAcked here unfinished).1
  rw [took]
  refine inv.fin s ?_
  -- everything is written: before the segment, or by the writes that it allows
  intro fin _
  rcases shape with ⟨rfl,empty⟩ | ⟨rfl,nonempty,fd,unfinished⟩ | ⟨rfl,passing⟩
  · cases finSeen : taken.c.guestFinSeen with
    | true => exact inv.ended here finSeen
    | false =>
      have all := (fairAcked here finSeen).2 fin
      rw [if_neg (by simp [empty])] at all
      exact inv.written_all all
  · have order := (fairAcked here unfinished).1 nonempty
    have all := (fairAcked here unfinished).2 fin
    rw [if_pos fd] at order
    rw [if_pos (by simp [fd,nonempty])] at all
    have sent := sendAck_quiet (appended iss s w)
    have pending : (sendAck (appended iss s w)).c.pending = w.c.pending ++ payload s := sent.side.pending
    have count : (sendAck (appended iss s w)).c.pending.length = w.c.pending.length + s.length := by
      rw [pending,length_append,length_payload]
    rw [flushPending_all _ (sent.side.fd.trans fd) (sent.side.state.symm ▸ all.1) (count ▸ all.2)]
    have whole := received_payload s acked.arrived order.1
    rw [s.last fin,take_length,received,append_assoc] at whole
    simp only [pending,sent.written]
    exact whole
  · have sent := sendAck_quiet (expectEnd iss s w)
    cases finSeen : w.c.guestFinSeen with
    | true =>
      have all := acked.ended here finSeen
      rw [flushPending_idle _ _ (.inr (sent.side.pending.trans (acked.pending_nil all)))]
      exact sent.written.trans all
    | false =>
      have closed := passing.resolve_right (by simp [finSeen])
      have all := (fairAcked here finSeen).2 fin
      rw [if_neg (by simp [closed])] at all
      rw [flushPending_idle _ _ (.inl (sent.side.fd.trans closed))]
      exact sent.written.trans (acked.written_all all)

theorem Inv.established (ack window : Nat) :
    Inv iss stream {w with c := {w.c with state := .established, guestAck := ack, guestWindow := window}} :=
  ⟨inv.arrived,inv.covered,inv.acknowledged,inv.ended,inv.shut,inv.numbers,inv.forgotten⟩

theorem Inv.syn (ack window : Nat) : Inv iss stream (takeSyn iss ack window w) := by
  unfold takeSyn
  split
  · refine Inv.quiet ?_ (sendAck_quiet _)
    have expecting := inv.expect (seqOf iss 0) 0 rfl fun _ => by simp
    exact (expecting.established ack window).quiet (.numbers _ _ dropGuestAcked_side)
  · split
    · exact inv.closeTcp
    · exact inv

theorem Inv.writable (connected : Bool) (first second : List Write) :
    Inv iss stream (step iss (.writable connected first second : Input stream) w) := by
  have checked : Inv iss stream (checkConnect connected first w) := by
    unfold checkConnect
    split
    · exact inv
    · split
      · exact (inv.established w.c.guestAck w.c.guestWindow).flush first
      · exact inv.closeTcp
  simp only [step]
  split
  · split
    · exact checked
    · exact checked.flush second
  · exact inv

theorem Inv.step (input : Input stream) (fair : Fair w input) : Inv iss stream (step iss input w) := by
  cases input with
  | segment s ack window memory outcomes =>
    simp only [NatTcp.step]
    split
    · next known => exact inv.segment s ack window memory outcomes known fair
    · exact inv
  | synAck ack window =>
    simp only [NatTcp.step]
    split
    · exact (inv.quiet (takeAck_quiet (some ack) window w)).syn ack window
    · exact inv
  | reset =>
    simp only [NatTcp.step]
    split
    · exact inv.closeTcp
    · exact inv
  | writable connected first second => exact inv.writable connected first second
  | readable outcomes =>
    simp only [NatTcp.step]
    split
    · exact inv.fromHost fair
    · exact inv
  | error =>
    simp only [NatTcp.step]
    split
    · exact inv.closeTcp
    · exact inv

theorem Inv.sound : Sound iss stream w :=
  ⟨inv.written_prefix,inv.acknowledged,inv.shut,inv.numbers⟩

end

end Invariant

inductive Opened : World → Prop where
  | outbound (natIss window : Nat) (connected : Bool) : Opened (openOutbound iss natIss window connected)
  | inbound (natIss : Nat) : Opened (openInbound natIss)

theorem Opened.inv {iss : Nat} {w : World} (opened : Opened iss w) : Inv iss stream w := by
  cases opened with
  | outbound natIss window connected =>
    exact ⟨ nil_prefix,fun _ => by simp [openOutbound],fun _ => by simp [openOutbound],fun _ fin => absurd fin (by simp [openOutbound]),
      fun shut => absurd shut (by simp [openOutbound]),fun _ _ => rfl,fun unknown => absurd unknown (by simp [openOutbound])⟩
  | inbound natIss =>
    exact ⟨ nil_prefix,fun _ => by simp [openInbound],fun _ => by simp [openInbound],fun _ fin => absurd fin (by simp [openInbound]),
      fun shut => absurd shut (by simp [openInbound]),fun _ synced => absurd synced (by simp [openInbound]),
      fun unknown => absurd unknown (by simp [openInbound])⟩

end Steps

/-- Along every run of fair inputs the socket gets the guest's stream in order, what is acknowledged is
written or pending, and the shutdown comes after the last byte. -/
theorem guest_stream_arrives_in_order (stream : Bytes) (iss : Nat) (start w : World) (opened : Opened iss start)
    (reached : Reach (fun (input : Input stream) w => some (step iss input w)) Fair start w) : Sound iss stream w := by
  refine Inv.sound (reached.invariant (Inv iss stream) opened.inv ?_)
  intro state next input inv fair moved
  cases moved
  exact inv.step input fair

section Samples

def piece (offset length : Nat) (fin : Bool) (inside : offset + length ≤ [1,2].length)
    (last : fin = true → offset + length = [1,2].length) : Segment [1,2] := ⟨offset,length,fin,inside,last⟩

/-- The first byte without room at the socket, then the second one with the end. -/
theorem guest_stream_arrives_in_two_pieces :
    Sound 7 [1,2] (step 7 (.segment (piece 1 1 true (by decide) (by decide)) none 100 true [.wrote 0,.interrupted,.wrote 0])
      (step 7 (.segment (piece 0 1 false (by decide) (by decide)) none 100 true [.wouldBlock]) (openOutbound 7 50 100 true))) := by
  refine guest_stream_arrives_in_order [1,2] 7 _ _ (.outbound 50 100 true)
    (.step _ _ _ (.step _ _ _ .start ?_ rfl) ?_ rfl)
  · intro _ _
    exact ⟨fun _ => by decide,fun fin => absurd fin (by decide)⟩
  · intro _ _
    exact ⟨fun _ => by decide,fun _ => by decide⟩

def run (inputs : List (Input [1,2])) : World := inputs.foldl (fun w input => step 7 input w) (openOutbound 7 50 100 true)

def first (memory : Bool) (outcomes : List Write) : Input [1,2] :=
  .segment (piece 0 1 false (by decide) (by decide)) none 100 memory outcomes

/-- A segment that comes again is written again; the end shuts the socket while bytes are pending; bytes
that were acknowledged are dropped when the host ends, or when the buffer did not take them. -/
theorem repetitions_ends_and_full_buffers_fail : ¬ Sound 7 [1,2] (run [first true [.wrote 0],first true [.wrote 0]]) ∧
    ¬ Sound 7 [1,2] (run [.segment (piece 0 2 true (by decide) (by decide)) none 100 true [.wrote 0,.wouldBlock]]) ∧
    ¬ Sound 7 [1,2] (run [first true [.wouldBlock],.readable [.eof]]) ∧
    ¬ Sound 7 [1,2] (run [first false [],.readable [.data 0]]) := by
  refine ⟨fun sound => ?_,fun sound => ?_,fun sound => ?_,fun sound => ?_⟩
  · exact absurd sound.written (by decide)
  · exact absurd (sound.shut (by decide)) (by decide)
  · exact absurd (sound.acknowledged (by decide)) (by decide)
  · exact absurd (sound.acknowledged (by decide)) (by decide)

end Samples

end Ant.Sandbox.NatStream
