import HttpWire.Exchange
import HttpWire.Proofs.Head.Written
import HttpWire.Proofs.Source.Lines

/-!
# Transcripts

A transcript is a list of messages written one behind the other.  Reading it
takes two steps for each message: its head, as a request or a response, and as
many octets as its body has.  The heads say nothing that is used to find their
ends, and the bodies may hold anything, so each step must stop at exactly the
octet at which the next one has to start.

The main statement, `run_transcript`, says that it does: the steps return the
messages that were written (`ReadBack`), each head with all parts of its start
line and all its fields, and what stands behind the transcript is left.
-/

namespace HttpWire.Exchange

/-- How a message starts. -/
inductive Start where
  | request (line : RequestLine)
  | response (line : StatusLine)
  deriving DecidableEq, Repr

/-- A message: its start line, its fields and its body. -/
structure Message where
  start : Start
  fields : List Entry
  body : Octets
  deriving DecidableEq, Repr

namespace Start

/-- The text of a start line. -/
def written : Start → Text
  | .request line => line.written
  | .response line => line.written

/-- Whether the written form of a start line can be told apart. -/
def Writable : Start → Prop
  | .request line => line.Writable
  | .response line => line.Writable

instance : (start : Start) → Decidable start.Writable
  | .request line => inferInstanceAs (Decidable line.Writable)
  | .response line => inferInstanceAs (Decidable line.Writable)

/-- The step that reads a head without limits. -/
def step : Start → Step
  | .request _ => .request Limits.unlimited
  | .response _ => .response Limits.unlimited

end Start

namespace Message

/-- The octets of a head. -/
def head (m : Message) : Octets :=
  Line.written m.start.written ++ FieldLine.block m.fields

/-- Whether the written form of a message can be told apart; its body is not
asked. -/
def Writable (m : Message) : Prop :=
  m.start.Writable ∧ ∀ e ∈ m.fields, FieldLine.Writable e

instance (m : Message) : Decidable m.Writable :=
  inferInstanceAs (Decidable (_ ∧ _))

/-- The steps that read a message. -/
def steps (m : Message) : List Step :=
  [m.start.step, .octets m.body.length]

end Message

/-- Messages one behind the other. -/
def transcript (messages : List Message) : Octets :=
  messages.flatMap fun m => m.head ++ m.body

section

variable [Hasher]

/-- An outcome is the head that was written: every part of the start line and
all fields in their order, in the map into which they are put one by one. -/
inductive Start.HeadBack (fields : List Entry) : Start → Outcome → Prop
  | request {line : RequestLine} {r : Request} (hline : r.line = line)
      (hentries : r.fields.toList = fields) (hmap : r.fields = FieldMap.ofList fields) :
      HeadBack fields (.request line) (.request (.ok r))
  | response {line : StatusLine} {r : Response} (hline : r.line = line)
      (hentries : r.fields.toList = fields) (hmap : r.fields = FieldMap.ofList fields) :
      HeadBack fields (.response line) (.response (.ok r))

/-- Outcomes are the messages that were written: of each its head, and then its
whole body. -/
inductive ReadBack : List Message → List Outcome → Prop
  | nil : ReadBack [] []
  | cons {m : Message} {messages : List Message} {head : Outcome} {outcomes : List Outcome}
      (hhead : m.start.HeadBack m.fields head) (hlater : ReadBack messages outcomes) :
      ReadBack (m :: messages) (head :: .octets m.body true :: outcomes)

/-- The source that an exchange leaves. -/
def after (s : Source) : List Step → Source
  | [] => s
  | step :: later => after (Step.run s step).2 later

variable {s : Source} {tail : List Signal}

/-- Whatever is left by an exchange is left by the last of its steps. -/
theorem after_eq_getLast (s : Source) (steps : List Step) :
    after s steps = ((run s steps).getLast?.map Prod.snd).getD s := by
  induction steps generalizing s with
  | nil => rfl
  | cons step later ih =>
      have hlater := ih (Step.run s step).2
      rw [after, hlater, run]
      cases h : run (Step.run s step).2 later with
      | nil => rfl
      | cons done rest => simp [List.getLast?_cons]

/-- **The octets of a body are read**, whatever they are. -/
theorem run_octets {body : Octets} (h : s.signals = body.map .octet ++ tail) :
    ∃ rest, Step.run s (.octets body.length) = (.octets body true, rest) ∧
      rest.signals = tail := by
  have htaken := Source.signals_takeThrough (fun _ => false) body.length s
  have hbody := Signal.takeThrough_append (fun b (_ : b ∈ body) => rfl)
    (Nat.le_refl body.length) tail
  have hnone : Signal.takeThrough (fun _ => false) (body.length - body.length) tail =
      ⟨[], tail, false⟩ := by
    rw [Nat.sub_self, Signal.takeThrough]
  rw [h, hbody, hnone, Signal.Taken.mk.injEq, List.append_nil] at htaken
  obtain ⟨hoctets, hrest, hfailed⟩ := htaken
  refine ⟨(s.takeOctets body.length).rest, ?_, hrest.symm⟩
  simp only [Step.run, Source.takeOctets, ← hoctets, ← hfailed]
  rfl

/-- **A head is read back**, and what follows it is left. -/
theorem run_head {m : Message} (hm : m.Writable) (hsize : m.head.length < UInt64.size - 1)
    (h : s.signals = m.head.map .octet ++ tail) :
    ∃ head rest, Step.run s m.start.step = (head, rest) ∧
      m.start.HeadBack m.fields head ∧ rest.signals = tail := by
  obtain ⟨start, fields, body⟩ := m
  obtain ⟨hstart, hfields⟩ := hm
  have hline : (Line.written start.written ++ FieldLine.block fields).length
      ≤ Limits.unlimited.lineSize.toNat := Nat.le_of_lt hsize
  have hcount : fields.length ≤ Limits.unlimited.fieldCount.toNat := by
    have hblock := FieldLine.length_le_block fields
    rw [List.length_append] at hline
    exact Nat.le_trans hblock (Nat.le_trans (Nat.le_add_left _ _) hline)
  have hentries : (FieldMap.ofList fields : Fields).toList = fields := FieldMap.toList_ofList fields
  cases start with
  | request line =>
      have hparse := RequestLine.parse_of_accepts (RequestLine.accepts_written hstart)
      obtain ⟨rest, hread, hrest⟩ := Source.readHead_written
        (RequestLine.lf_not_mem_written hstart) hparse hfields hline hcount h
      refine ⟨.request (.ok (Request.ofLine line (FieldMap.ofList fields))), rest, ?_,
        .request rfl hentries rfl, hrest⟩
      simp only [Start.step, Step.run, Source.readRequest, hread]
      rfl
  | response line =>
      have hparse := StatusLine.parse_of_accepts (StatusLine.accepts_written hstart)
      obtain ⟨rest, hread, hrest⟩ := Source.readHead_written
        (StatusLine.lf_not_mem_written hstart) hparse hfields hline hcount h
      refine ⟨.response (.ok (Response.ofLine line (FieldMap.ofList fields))), rest, ?_,
        .response rfl hentries rfl, hrest⟩
      simp only [Start.step, Step.run, Source.readResponse, hread]
      rfl

/-- **A transcript is read back.**  The induction is on the messages: each
leaves a source at which the rest of the transcript starts. -/
theorem run_messages {messages : List Message} (hmessages : ∀ m ∈ messages, m.Writable)
    (hsize : (transcript messages).length < UInt64.size - 1)
    (h : s.signals = (transcript messages).map .octet ++ tail) :
    ReadBack messages ((run s (messages.flatMap Message.steps)).map Prod.fst) ∧
      (after s (messages.flatMap Message.steps)).signals = tail := by
  induction messages generalizing s with
  | nil => exact ⟨.nil, h⟩
  | cons m messages ih =>
      have hcons : transcript (m :: messages) = m.head ++ (m.body ++ transcript messages) := by
        simp [transcript]
      rw [hcons] at hsize h
      simp only [List.length_append] at hsize
      rw [List.map_append, List.map_append, List.append_assoc, List.append_assoc] at h
      obtain ⟨head, middle, hrun, hhead, hmiddle⟩ :=
        run_head (hmessages m List.mem_cons_self) (by omega) h
      obtain ⟨rest, hbody, hrest⟩ := run_octets hmiddle
      obtain ⟨hlater, hleft⟩ :=
        ih (fun d hd => hmessages d (List.mem_cons_of_mem _ hd)) (by omega) hrest
      simp only [List.flatMap_cons, Message.steps, List.cons_append, List.nil_append, run, after,
        hrun, hbody, List.map_cons]
      exact ⟨.cons hhead hlater, hleft⟩

/-- **Messages in a row are read back one by one.**  On a source without
failures that holds less than 2^64-1 octets, reading head and body of each
message in turn gives exactly the heads and bodies that were written, with all
parts of their start lines and all fields in order, and leaves exactly what
stands behind them. -/
theorem run_transcript (messages : List Message) (trailing : Octets) (s : Source)
    (hmessages : ∀ m ∈ messages, m.Writable) (hintact : Event.failed ∉ s)
    (hdata : s.remaining = transcript messages ++ trailing)
    (hsize : s.remaining.length < UInt64.size - 1) :
    ReadBack messages ((run s (messages.flatMap Message.steps)).map Prod.fst) ∧
      (after s (messages.flatMap Message.steps)).remaining = trailing := by
  have hsignals : s.signals = (transcript messages).map .octet ++ trailing.map .octet := by
    rw [Source.signals_of_intact hintact, hdata, List.map_append]
  have hlen : (transcript messages).length < UInt64.size - 1 := by
    rw [hdata, List.length_append] at hsize
    omega
  obtain ⟨hback, hleft⟩ := run_messages hmessages hlen hsignals
  exact ⟨hback, Source.remaining_of_signals hleft⟩

end

/-- A request whose query holds `?`, whose value starts with a space and ends
with CR and whose body looks like a head, and a response with a space in the
status; the chunks end in the middle of lines. -/
theorem run_transcript_request_response :
    let request : Message :=
      ⟨.request ⟨['G'], ['/'], ['q', '?'], ['1', ' ', '1']⟩, [(['A'], [' ', ':', '\r'])],
        [66, 58, 13, 10, 255]⟩
    let response : Message := ⟨.response ⟨['1'], ['2', ' ', 'é']⟩, [], []⟩
    let s : Source := [
      .data [71, 32, 47, 63, 113, 63, 32, 72, 84, 84, 80, 47, 49, 32, 49, 13, 10, 65, 58, 32],
      .interrupted,
      .data [32, 58, 13, 13, 10, 13, 10, 66, 58, 13, 10, 255, 72, 84, 84, 80, 47, 49, 32, 50, 32,
        195, 169, 13, 10, 13, 10, 10, 10]]
    let steps : List Step :=
      [.request Limits.unlimited, .octets 5, .response Limits.unlimited, .octets 0]
    (∀ m ∈ [request, response], m.Writable) ∧ Event.failed ∉ s ∧
      s.remaining = transcript [request, response] ++ [10, 10] ∧
      s.remaining.length < UInt64.size - 1 ∧
      (∃ (r : Request) (answer : Response),
        (run s steps).map Prod.fst = [.request (.ok r), .octets [66, 58, 13, 10, 255] true,
          .response (.ok answer), .octets [] true] ∧
        (r.method = ['G'] ∧ r.path = ['/'] ∧ r.query = ['q', '?'] ∧ r.version = ['1', ' ', '1'] ∧
          r.fields.toList = [(['A'], [' ', ':', '\r'])]) ∧
        answer.version = ['1'] ∧ answer.status = ['2', ' ', 'é'] ∧ answer.fields.toList = []) ∧
      (after s steps).remaining = [10, 10] := by
  intro request response s steps
  have hmessages : ∀ m ∈ [request, response], m.Writable := by decide
  have hintact : Event.failed ∉ s := by decide
  have hdata : s.remaining = transcript [request, response] ++ [10, 10] := by decide
  have hsize : s.remaining.length < UInt64.size - 1 := by decide
  obtain ⟨hback, hleft⟩ :=
    run_transcript [request, response] [10, 10] s hmessages hintact hdata hsize
  refine ⟨hmessages, hintact, hdata, hsize, ?_, hleft⟩
  obtain ⟨outcomes, houtcomes⟩ : ∃ outcomes, (run s steps).map Prod.fst = outcomes := ⟨_, rfl⟩
  have hread : ReadBack [request, response] outcomes := houtcomes ▸ hback
  rw [houtcomes]
  obtain _ | ⟨hfirst, _ | ⟨hsecond, _ | _⟩⟩ := hread
  obtain @⟨_, r, hline, hentries, -⟩ | _ := hfirst
  obtain _ | @⟨_, answer, hline', hentries', -⟩ := hsecond
  obtain ⟨hmethod, hpath, hquery, hversion⟩ := RequestLine.mk.inj hline
  obtain ⟨hversion', hstatus⟩ := StatusLine.mk.inj hline'
  exact ⟨r, answer, rfl, ⟨hmethod, hpath, hquery, hversion, hentries⟩, hversion', hstatus,
    hentries'⟩

end HttpWire.Exchange
