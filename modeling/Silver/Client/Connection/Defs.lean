import Silver.Foundation.Run

/-!
# The connection task

The client keeps one authenticated connection to its relay and, where the relay
offers it, a second one that never says who it is.  Envelopes, file chunks and the
group sequencer's frames are meant for the second; everything else is written to the
first.  This is the sending half of the task.
-/

namespace Silver.Client.Connection

open Foundation

/-- A sealed message on its way. -/
structure Envelope where
  id : String
  body : List UInt8
deriving DecidableEq

/-- What the task writes to the relay.  The frames no modelled function submits
(publishing, lookups, acknowledgements, pings) are one. -/
inductive Frame where
  | send (envelope : Envelope)
  | blobPut (blob : String) (index total : Nat) (data : List UInt8)
  | blobGet (blob : String)
  | groupCreate (group : String)
  | groupCommit (group : String) (epoch : Nat) (commit : List UInt8)
  | plain
deriving DecidableEq

def Frame.submitted : Frame -> Bool
  | .send _ | .blobPut _ _ _ _ | .blobGet _ | .groupCreate _ | .groupCommit _ _ _ => true
  | .plain => false

/-- The task behind the anonymous connection.  `left` counts the frames it still takes
where it is about to end; `none` is a task that goes on. -/
structure Submitter where
  ready : Bool
  left : Option Nat
  taken : List Frame
deriving DecidableEq

namespace Submitter

def spawn : Submitter :=
  ⟨false, none, []⟩

def submit (submitter : Submitter) (frame : Frame) : Option Submitter :=
  match submitter.left with
  | some 0 => none
  | some (left + 1) =>
    some { submitter with left := some left, taken := submitter.taken ++ [frame] }
  | none => some { submitter with taken := submitter.taken ++ [frame] }

end Submitter

/-- The connection that submits. -/
inductive Submission where
  | authenticated
  | anonymous (submitter : Submitter)
deriving DecidableEq

/-- Both connections of a session, with every frame the authenticated one has carried.
`left` counts the frames it still carries where it is about to break. -/
structure Lines where
  written : List Frame
  left : Option Nat
  submission : Submission
deriving DecidableEq

/-- What became of a frame handed over. -/
inductive Handed where
  | sent
  | waiting
  | broken
deriving DecidableEq

namespace Lines

def write (lines : Lines) (frame : Frame) : Bool × Lines :=
  match lines.left with
  | some 0 => (false, lines)
  | some (left + 1) => (true, { lines with left := some left, written := lines.written ++ [frame] })
  | none => (true, { lines with written := lines.written ++ [frame] })

/-- Hand a frame to the relay on whichever connection submits. -/
def sendFrame (lines : Lines) (frame : Frame) : Handed × Lines :=
  match lines.submission with
  | .anonymous submitter =>
    if submitter.ready then
      match submitter.submit frame with
      | some after => (.sent, { lines with submission := .anonymous after })
      | none => (.waiting, { lines with submission := .authenticated })
    else (.waiting, lines)
  | .authenticated =>
    match lines.write frame with
    | (true, after) => (.sent, after)
    | (_, after) => (.broken, after)

def submit (lines : Lines) (envelope : Envelope) : Bool × Lines :=
  match lines.sendFrame (.send envelope) with
  | (.broken, after) => (false, after)
  | (_, after) => (true, after)

def flushOutbox : Lines -> List Envelope -> Bool × Lines
  | lines, [] => (true, lines)
  | lines, envelope :: rest =>
    match lines.submit envelope with
    | (true, after) => after.flushOutbox rest
    | (false, after) => (false, after)

def sendSequencer (lines : Lines) (frame : Frame) : Handed × Lines :=
  match lines.sendFrame frame with
  | (.waiting, after) =>
    match after.write frame with
    | (true, written) => (.sent, written)
    | (_, written) => (.broken, written)
  | handed => handed

def writePlain : Lines -> Nat -> Bool × Lines
  | lines, 0 => (true, lines)
  | lines, count + 1 =>
    match lines.write .plain with
    | (true, after) => after.writePlain count
    | (false, after) => (false, after)

end Lines

def UPLOAD_WINDOW : Nat := 4

def MAX_CHUNK_CIPHERTEXT : Nat := 65536 + 16

/-- A file on its way to the relay. -/
structure Upload where
  chunks : List (List UInt8)
  sent : Nat
  acked : Nat
deriving DecidableEq

/-- A file on its way from the relay. -/
structure Download where
  chunks : List (Option (List UInt8))
  received : Nat
  requested : Bool
deriving DecidableEq

abbrev Blobs (Transfer : Type) : Type :=
  List (String × Transfer)

namespace Blobs

def find (blobs : Blobs Transfer) (blob : String) : Option Transfer :=
  List.lookup blob blobs

def remove (blobs : Blobs Transfer) (blob : String) : Blobs Transfer :=
  blobs.filter fun entry => entry.1 ≠ blob

def insert (blobs : Blobs Transfer) (blob : String) (transfer : Transfer) : Blobs Transfer :=
  (blob, transfer) :: blobs.remove blob

def update (blobs : Blobs Transfer) (blob : String) (transfer : Transfer) : Blobs Transfer :=
  blobs.map fun entry => if entry.1 = blob then (blob, transfer) else entry

end Blobs

/-- Hand over the chunks not yet sent while the window allows: how many are sent. -/
def pumpChunks (blob : String) (total acked : Nat) :
    Lines -> Nat -> List (List UInt8) -> Bool × Lines × Nat
  | lines, sent, [] => (true, lines, sent)
  | lines, sent, data :: rest =>
    if sent - acked < UPLOAD_WINDOW then
      match lines.sendFrame (.blobPut blob sent total data) with
      | (.sent, after) => pumpChunks blob total acked after (sent + 1) rest
      | (.waiting, after) => (true, after, sent)
      | (.broken, after) => (false, after, sent)
    else (true, lines, sent)

/-- The next chunks of an upload.  Subtracting more acknowledgements than chunks sent
ends the task. -/
def pumpUpload (lines : Lines) (blob : String) (uploads : Blobs Upload) :
    Option (Bool × Lines × Blobs Upload) :=
  match uploads.find blob with
  | none => some (true, lines, uploads)
  | some upload =>
    if upload.sent < upload.chunks.length ∧ upload.sent < upload.acked then none
    else
      let (going, after, sent) :=
        pumpChunks blob upload.chunks.length upload.acked lines upload.sent
          (upload.chunks.drop upload.sent)
      some (going, after, uploads.update blob { upload with sent })

/-- Ask for the downloads not asked for yet. -/
def requestDownloads : Lines -> Blobs Download -> Bool × Lines × Blobs Download
  | lines, [] => (true, lines, [])
  | lines, (blob, download) :: rest =>
    if download.requested then
      let (going, after, later) := requestDownloads lines rest
      (going, after, (blob, download) :: later)
    else
      match lines.sendFrame (.blobGet blob) with
      | (.sent, after) =>
        let (going, last, later) := requestDownloads after rest
        (going, last, (blob, { download with requested := true }) :: later)
      | (.waiting, after) => (true, after, (blob, download) :: rest)
      | (.broken, after) => (false, after, (blob, download) :: rest)

def rewind (uploads : Blobs Upload) (blob : String) : Blobs Upload :=
  match uploads.find blob with
  | some upload => uploads.update blob { upload with sent := upload.acked }
  | none => uploads

def resumeUploads : Lines -> List String -> Blobs Upload -> Option (Bool × Lines × Blobs Upload)
  | lines, [], uploads => some (true, lines, uploads)
  | lines, blob :: rest, uploads =>
    match pumpUpload lines blob (rewind uploads blob) with
    | none => none
    | some (true, after, pumped) => resumeUploads after rest pumped
    | some (false, after, pumped) => some (false, after, pumped)

/-- Push the transfers along after the submitting connection changed. -/
def resumeTransfers (lines : Lines) (uploads : Blobs Upload) (downloads : Blobs Download) :
    Option (Bool × Lines × Blobs Upload × Blobs Download) :=
  match resumeUploads lines (uploads.map Prod.fst) uploads with
  | none => none
  | some (false, after, pumped) => some (false, after, pumped, downloads)
  | some (_, after, pumped) =>
    let (going, last, asked) := requestDownloads after
      (downloads.map fun entry => (entry.1, { entry.2 with requested := false }))
    some (going, last, pumped, asked)

/-- The relay's answers about a blob. -/
inductive BlobFrame where
  | ack (blob : String) (complete : Bool)
  | rejected (blob : String)
  | chunk (blob : String) (index total : Nat) (data : List UInt8)
deriving DecidableEq

/-- The transfers under way and the connections they go over. -/
structure Transferring where
  lines : Lines
  uploads : Blobs Upload
  downloads : Blobs Download

/-- Apply a chunk to the download it belongs to. -/
def takeChunk (downloads : Blobs Download) (blob : String) (index total : Nat)
    (data : List UInt8) : Blobs Download :=
  match downloads.find blob with
  | none => downloads
  | some download =>
    if total ≠ download.chunks.length ∨ download.chunks.length <= index then
      downloads.remove blob
    else if MAX_CHUNK_CIPHERTEXT < data.length then downloads.remove blob
    else
      let taken := match download.chunks[index]? with
        | some none =>
          { download with
            chunks := download.chunks.set index (some data)
            received := download.received + 1 }
        | _ => download
      if taken.received = download.chunks.length then downloads.remove blob
      else downloads.update blob taken

/-- Apply the relay's answer about a blob to the transfer it belongs to. -/
def handleBlobFrame (state : Transferring) : BlobFrame -> Option (Bool × Transferring)
  | .ack blob complete =>
    match state.uploads.find blob with
    | none => some (true, state)
    | some upload =>
      if complete ∨ upload.chunks.length <= upload.acked + 1 then
        some (true, { state with uploads := state.uploads.remove blob })
      else
        match pumpUpload state.lines blob
            (state.uploads.update blob { upload with acked := upload.acked + 1 }) with
        | none => none
        | some (going, lines, uploads) => some (going, { state with lines, uploads })
  | .rejected blob =>
    some (true, { state with
      uploads := state.uploads.remove blob
      downloads := state.downloads.remove blob })
  | .chunk blob index total data =>
    some (true, { state with downloads := takeChunk state.downloads blob index total data })

/-- What of the task's setup decides which connection submits. -/
structure Setup where
  submitAuthenticated : Bool
  requireAnonymous : Bool
deriving DecidableEq

/-- One login session: whether the relay offers anonymous submission and has taken the
bundle, and whether a resend of the outbox is due. -/
structure Session where
  offered : Bool
  published : Bool
  retry : Bool
  left : Option Nat
  submission : Submission
deriving DecidableEq

/-- The connection task, with every frame its authenticated connections have carried. -/
structure Task where
  written : List Frame
  outbox : List Envelope
  uploads : Blobs Upload
  downloads : Blobs Download
  session : Option Session
deriving DecidableEq

/-- What the front end asks of the task.  Requests answered on the authenticated
connection alone are one. -/
inductive Command where
  | send (envelope : Envelope)
  | upload (blob : String) (chunks : List (List UInt8))
  | download (blob : String) (total : Nat)
  | groupCreate (group : String)
  | groupCommit (group : String) (epoch : Nat) (commit : List UInt8)
  | plain
deriving DecidableEq

/-- What comes in on the authenticated connection.  Frames that make the task write
nothing but `replies` frames of its own are one. -/
inductive ServerFrame where
  | published
  | sent (id : String)
  | rejected (id : String) (rateLimited : Bool)
  | blob (frame : BlobFrame)
  | error
  | plain (replies : Nat)
deriving DecidableEq

/-- What the anonymous connection's task reports. -/
inductive SubmitEvent where
  | ready
  | sent (id : String)
  | rejected (id : String) (rateLimited : Bool)
  | blob (frame : BlobFrame)
  | group
  | down
  | refused
deriving DecidableEq

/-- What can happen to the task: a login, a command, a frame, an event of the anonymous
connection's task (its end among them), a resend falling due, either connection about to
fail after some frames, the session ending, and a map walked in another order. -/
inductive Move where
  | connect (offered : Bool)
  | command (command : Command)
  | relay (frame : ServerFrame)
  | event (event : Option SubmitEvent)
  | retry
  | keepalive
  | breaks (left : Nat)
  | stops (left : Nat)
  | disconnect
  | rehash (uploads : Blobs Upload) (downloads : Blobs Download)
deriving DecidableEq

namespace Task

def start (outbox : List Envelope) : Task :=
  ⟨[], outbox, [], [], none⟩

def disconnected (task : Task) : Task :=
  { task with session := none }

def within (task : Task) (session : Session) : Task :=
  { task with session := some session }

def lines (task : Task) (session : Session) : Lines :=
  ⟨task.written, session.left, session.submission⟩

def proceed (task : Task) (session : Session) (going : Bool) (lines : Lines) : Task :=
  { task with
    written := lines.written
    session := if going then
        some { session with left := lines.left, submission := lines.submission }
      else none }

def push (task : Task) (envelope : Envelope) : Task :=
  if task.outbox.any fun queued => queued.id = envelope.id then task
  else { task with outbox := task.outbox ++ [envelope] }

def answered (task : Task) (id : String) : Task :=
  { task with outbox := task.outbox.filter fun queued => queued.id ≠ id }

def queueUpload (task : Task) (blob : String) (chunks : List (List UInt8)) : Task :=
  { task with uploads := task.uploads.insert blob ⟨chunks, 0, 0⟩ }

def queueDownload (task : Task) (blob : String) (total : Nat) : Task :=
  { task with downloads := task.downloads.insert blob ⟨List.replicate total none, 0, false⟩ }

def resend (task : Task) (session : Session) : Option Task :=
  match (task.lines session).flushOutbox task.outbox with
  | (false, lines) => some (task.proceed session false lines)
  | (_, lines) =>
    match resumeTransfers lines task.uploads task.downloads with
    | none => none
    | some (going, last, uploads, downloads) =>
      some ({ task with uploads, downloads }.proceed session going last)

def blobFrame (task : Task) (session : Session) (frame : BlobFrame) : Option Task :=
  match handleBlobFrame ⟨task.lines session, task.uploads, task.downloads⟩ frame with
  | none => none
  | some (going, after) =>
    some ({ task with uploads := after.uploads, downloads := after.downloads }.proceed
      session going after.lines)

def sequencer (task : Task) (session : Session) (frame : Frame) : Task :=
  match (task.lines session).sendSequencer frame with
  | (.broken, lines) => task.proceed session false lines
  | (_, lines) => task.proceed session true lines

def plain (task : Task) (session : Session) (count : Nat) : Task :=
  let (going, lines) := (task.lines session).writePlain count
  task.proceed session going lines

def refused (task : Task) (session : Session) (id : String) (rateLimited : Bool) : Task :=
  if rateLimited then task.within { session with retry := true }
  else task.answered id

/-- A command while connected. -/
def onCommand (task : Task) (session : Session) : Command -> Option Task
  | .send envelope =>
    let queued := task.push envelope
    if session.published then
      let (going, lines) := (queued.lines session).submit envelope
      some (queued.proceed session going lines)
    else some queued
  | .upload blob chunks =>
    let queued := task.queueUpload blob chunks
    if session.published then
      match pumpUpload (queued.lines session) blob queued.uploads with
      | none => none
      | some (going, lines, uploads) => some ({ queued with uploads }.proceed session going lines)
    else some queued
  | .download blob total =>
    let queued := task.queueDownload blob total
    if session.published then
      let (going, lines, downloads) := requestDownloads (queued.lines session) queued.downloads
      some ({ queued with downloads }.proceed session going lines)
    else some queued
  | .groupCreate group => some (task.sequencer session (.groupCreate group))
  | .groupCommit group epoch commit =>
    some (task.sequencer session (.groupCommit group epoch commit))
  | .plain => some (task.plain session 1)

def onCommandOffline (task : Task) : Command -> Task
  | .send envelope => task.push envelope
  | .upload blob chunks => task.queueUpload blob chunks
  | .download blob total => task.queueDownload blob total
  | .groupCreate _ | .groupCommit _ _ _ | .plain => task

def onPublished (setup : Setup) (task : Task) (session : Session) : Option Task :=
  if session.published then some task
  else
    let submission := if session.offered ∧ ¬setup.submitAuthenticated then
        Submission.anonymous Submitter.spawn
      else session.submission
    task.resend { session with published := true, submission }

def onRelay (setup : Setup) (task : Task) (session : Session) : ServerFrame -> Option Task
  | .published => onPublished setup task session
  | .sent id => some (task.answered id)
  | .rejected id rateLimited => some (task.refused session id rateLimited)
  | .blob frame => task.blobFrame session frame
  | .error => some (if session.published then task else task.disconnected)
  | .plain replies => some (task.plain session replies)

/-- An event of the anonymous connection's task; none is that task gone. -/
def onEvent (setup : Setup) (task : Task) (session : Session) (submitter : Submitter) :
    Option SubmitEvent -> Option Task
  | some .ready =>
    task.resend { session with submission := .anonymous { submitter with ready := true } }
  | some (.sent id) => some (task.answered id)
  | some (.rejected id rateLimited) => some (task.refused session id rateLimited)
  | some (.blob frame) => task.blobFrame session frame
  | some .group => some task
  | some .down =>
    some (task.within
      { session with submission := .anonymous { submitter with ready := false } })
  | some .refused | none =>
    if setup.requireAnonymous then some task.disconnected
    else task.resend { session with submission := .authenticated }

def connect (setup : Setup) (task : Task) (offered : Bool) : Task :=
  if setup.requireAnonymous ∧ ¬offered then task
  else task.plain ⟨offered, false, false, none, .authenticated⟩ 1

/-- What happens in a session. -/
def inSession (setup : Setup) (task : Task) (session : Session) : Move -> Option Task
  | .connect _ => none
  | .command command => task.onCommand session command
  | .relay frame => onRelay setup task session frame
  | .event event =>
    match session.submission with
    | .anonymous submitter => onEvent setup task session submitter event
    | .authenticated => none
  | .retry =>
    if session.retry then
      let (going, lines) := (task.lines session).flushOutbox task.outbox
      some (task.proceed { session with retry := false } going lines)
    else none
  | .keepalive => some (task.plain session 1)
  | .breaks left => some (task.within { session with left := some left })
  | .stops left =>
    match session.submission with
    | .anonymous submitter =>
      some (task.within
        { session with submission := .anonymous { submitter with left := some left } })
    | .authenticated => none
  | .disconnect => some task.disconnected
  | .rehash uploads downloads =>
    if uploads.Perm task.uploads ∧ downloads.Perm task.downloads then
      some { task with uploads, downloads }
    else none

def step (setup : Setup) (task : Task) (move : Move) : Option Task :=
  match task.session with
  | some session => inSession setup task session move
  | none =>
    match move with
    | .connect offered => some (connect setup task offered)
    | .command command => some (task.onCommandOffline command)
    | _ => none

end Task

end Silver.Client.Connection
