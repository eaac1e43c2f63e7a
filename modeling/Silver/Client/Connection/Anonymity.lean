import Silver.Client.Connection.Defs

/-!
# Required anonymity

The task decides which connection submits in one place, but gives the anonymous one up in
several.  With anonymity required and a submission task that goes on while it is handed
frames, nothing that belongs on the anonymous connection is written to the authenticated
one in a run that hands over sequencer frames only while the anonymous connection is up,
and neither resends nor pumps an upload before the relay has taken the bundle.
-/

namespace Silver.Client.Connection

open Foundation Lines Session Submitter

def Submission.steady : Submission → Bool
  | .anonymous submitter => !submitter.ready || submitter.left.isNone
  | .authenticated => false

def Submission.attended : Submission → Bool
  | .anonymous submitter => submitter.ready && submitter.left.isNone
  | .authenticated => false

def BlobFrame.pumps (uploads : Blobs Upload) : BlobFrame → Bool
  | .ack blob complete => (uploads.find blob).any fun upload =>
    !complete && decide (upload.acked + 1 < upload.chunks.length)
  | .rejected _ | .chunk _ _ _ _ => false

namespace Session

/-- What is handed over in a session stays off the authenticated connection. -/
def guards (session : Session) (task : Task) : Move → Bool
  | .command (.send _) | .command (.upload _ _) | .command (.download _ _) =>
    !session.published || session.submission.steady
  | .command (.groupCreate _) | .command (.groupCommit _ _ _) => session.submission.attended
  | .relay (.blob frame) | .event (some (.blob frame)) =>
    session.submission.steady || !frame.pumps task.uploads
  | .event (some .ready) =>
    match session.submission with
    | .anonymous submitter => submitter.left.isNone
    | .authenticated => true
  | .retry => session.submission.steady || task.outbox.isEmpty
  | .command .plain | .relay _ | .event _ | .connect _ | .keepalive | .breaks _ | .stops _
  | .disconnect | .rehash _ _ => true

end Session

def Task.Guarded (task : Task) (move : Move) : Prop :=
  (task.session.all fun session => session.guards task move) = true
deriving Decidable

def Submission.isAnonymous : Submission → Bool
  | .anonymous _ => true
  | .authenticated => false

theorem Submission.steady_of_attended
    {submission : Submission} (attended : submission.attended = true) :
    submission.steady = true := by
  cases submission with
  | anonymous =>
    obtain ⟨-, goesOn⟩ := Bool.and_eq_true_iff.mp attended
    simp [steady, goesOn]
  | authenticated => cases attended

theorem Submitter.submit_of_goesOn
    {submitter : Submitter} (goesOn : submitter.left = none) (frame : Frame) :
    submitter.submit frame = some { submitter with taken := submitter.taken ++ [frame] } := by
  unfold submit
  rw [goesOn]

namespace Lines

/-- Nothing that belongs elsewhere was written, and the anonymous connection was not
given up. -/
structure Quiet (before after : Lines) : Prop where
  written : ∀ frame ∈ after.written, frame ∈ before.written ∨ frame.submitted = false
  anonymous : before.submission.isAnonymous = true → after.submission.isAnonymous = true

namespace Quiet

theorem refl (lines : Lines) : lines.Quiet lines :=
  ⟨fun _ mem => .inl mem, id⟩

theorem trans {first : Lines} (earlier : first.Quiet second) (later : second.Quiet third) :
    first.Quiet third := by
  constructor
  · intro frame mem
    rcases later.written frame mem with before | harmless
    · exact earlier.written frame before
    · exact .inr harmless
  · exact fun anonymous => later.anonymous (earlier.anonymous anonymous)

end Quiet

/-- A steady submission stays one, and nothing is written. -/
structure Steadily (before after : Lines) : Prop where
  quiet : before.Quiet after
  steady : after.submission.steady = true

theorem Steadily.trans
    {first : Lines} (earlier : first.Steadily second) (later : second.Steadily third) :
    first.Steadily third :=
  ⟨earlier.quiet.trans later.quiet, later.steady⟩

theorem Steadily.refl {lines : Lines} (steady : lines.submission.steady = true) :
    lines.Steadily lines :=
  ⟨.refl lines, steady⟩

section Handing

variable {lines : Lines} (steady : lines.submission.steady = true)
include steady

theorem sendFrame_steadily (frame : Frame) : lines.Steadily (lines.sendFrame frame).2 := by
  unfold sendFrame
  split
  next submitter submitting =>
    rw [submitting] at steady
    split
    next up =>
      have goesOn : submitter.left = none := by
        simpa [Submission.steady, up] using steady
      rw [submit_of_goesOn goesOn]
      refine ⟨⟨fun _ mem => .inl mem, fun _ => rfl⟩, ?_⟩
      simp [Submission.steady, goesOn]
    · exact .refl (by rw [submitting]; exact steady)
  next submitting =>
    rw [submitting] at steady
    cases steady

theorem submit_steadily (envelope : Envelope) : lines.Steadily (lines.submit envelope).2 := by
  have handed := sendFrame_steadily steady (.send envelope)
  unfold submit
  split
  · simp_all
  · simp_all

theorem flushOutbox_steadily (outbox : List Envelope) :
    lines.Steadily (lines.flushOutbox outbox).2 := by
  induction outbox generalizing lines with
  | nil => exact .refl steady
  | cons envelope _ ih =>
    have handed := submit_steadily steady envelope
    unfold flushOutbox
    split
    next after submitted =>
      rw [submitted] at handed
      exact handed.trans (ih handed.steady)
    next after submitted =>
      rw [submitted] at handed
      exact handed

theorem pumpChunks_steadily (blob : String) (total acked sent : Nat) (chunks : List (List UInt8)) :
    lines.Steadily (pumpChunks blob total acked lines sent chunks).2.1 := by
  induction chunks generalizing lines sent with
  | nil => exact .refl steady
  | cons data _ ih =>
    have handed := sendFrame_steadily steady (.blobPut blob sent total data)
    unfold pumpChunks
    split
    · split
      next after submitted =>
        rw [submitted] at handed
        exact handed.trans (ih handed.steady (sent + 1))
      next after submitted =>
        rw [submitted] at handed
        exact handed
      next after submitted =>
        rw [submitted] at handed
        exact handed
    · exact .refl steady

theorem pumpUpload_steadily (pumped : pumpUpload lines blob uploads = some result) :
    lines.Steadily result.2.1 := by
  unfold pumpUpload at pumped
  split at pumped
  · cases pumped
    exact .refl steady
  next =>
    split at pumped
    · cases pumped
    cases pumped
    exact pumpChunks_steadily steady blob _ _ _ _

theorem requestDownloads_steadily (downloads : Blobs Download) :
    lines.Steadily (requestDownloads lines downloads).2.1 := by
  induction downloads generalizing lines with
  | nil => exact .refl steady
  | cons entry _ ih =>
    obtain ⟨blob, _⟩ := entry
    have handed := sendFrame_steadily steady (.blobGet blob)
    unfold requestDownloads
    split
    · exact ih steady
    split
    next after submitted =>
      rw [submitted] at handed
      exact handed.trans (ih handed.steady)
    next after submitted =>
      rw [submitted] at handed
      exact handed
    next after submitted =>
      rw [submitted] at handed
      exact handed

theorem resumeUploads_steadily (resumed : resumeUploads lines blobs uploads = some result) :
    lines.Steadily result.2.1 := by
  induction blobs generalizing lines uploads with
  | nil =>
    cases resumed
    exact .refl steady
  | cons _ _ ih =>
    unfold resumeUploads at resumed
    split at resumed
    · cases resumed
    next after uploads pumped =>
      have first := pumpUpload_steadily steady pumped
      exact first.trans (ih first.steady resumed)
    next after uploads pumped =>
      cases resumed
      exact pumpUpload_steadily steady pumped

theorem resumeTransfers_steadily {downloads : Blobs Download}
    (resumed : resumeTransfers lines uploads downloads = some result) :
    lines.Steadily result.2.1 := by
  unfold resumeTransfers at resumed
  split at resumed
  · cases resumed
  next after pumped uploaded =>
    cases resumed
    exact resumeUploads_steadily steady uploaded
  next after pumped uploaded =>
    cases resumed
    have first := resumeUploads_steadily steady uploaded
    exact first.trans (requestDownloads_steadily first.steady _)

end Handing

theorem writePlain_quiet (lines : Lines) (count : Nat) :
    lines.Quiet (lines.writePlain count).2 := by
  induction count generalizing lines with
  | zero => exact .refl lines
  | succ count ih =>
    have first : lines.Quiet (lines.write .plain).2 := by
      unfold write
      split
      · exact .refl lines
      all_goals
        refine ⟨fun frame mem => ?_, id⟩
        rcases List.mem_append.mp mem with before | new
        · exact .inl before
        obtain rfl := List.mem_singleton.mp new
        exact .inr rfl
    unfold writePlain
    split
    next after written =>
      rw [written] at first
      exact first.trans (ih after)
    next after written =>
      rw [written] at first
      exact first

end Lines

theorem handleBlobFrame_quiet {state : Transferring} {frame : BlobFrame}
    (guarded : state.lines.submission.steady = true ∨ frame.pumps state.uploads = false)
    (handled : handleBlobFrame state frame = some result) :
    state.lines.Quiet result.2.lines := by
  cases frame with
  | ack blob =>
    unfold handleBlobFrame at handled
    dsimp only at handled
    split at handled
    · cases handled
      exact .refl _
    next found =>
      split at handled
      · cases handled
        exact .refl _
      next goesOn =>
        split at handled
        · cases handled
        next lines uploads pumped =>
          cases handled
          rcases guarded with steady | still
          · exact (pumpUpload_steadily steady pumped).quiet
          simp only [not_or, Nat.not_le, Bool.not_eq_true] at goesOn
          simp [BlobFrame.pumps, found, goesOn.1, goesOn.2] at still
  | rejected blob | chunk blob =>
    cases handled
    exact .refl _

/-- A session as anonymity is required of it: offered, and used once the bundle is
taken. -/
structure Session.Hides (session : Session) : Prop where
  offered : session.offered = true
  anonymous : session.published = true → session.submission.isAnonymous = true

/-- Nothing submitted was written to an authenticated connection, and nothing in the
session makes it so. -/
structure Task.Hidden (task : Task) : Prop where
  written : ∀ frame ∈ task.written, frame.submitted = false
  session : ∀ session, task.session = some session → session.Hides

namespace Task.Hidden

variable {task : Task} {session : Session}
variable {after : Task}

theorem start (outbox : List Envelope) : (Task.start outbox).Hidden := by
  constructor
  · exact nofun
  · exact nofun

section

variable (hidden : task.Hidden)
include hidden

theorem same (written : after.written = task.written) (kept : after.session = task.session) :
    after.Hidden := by
  constructor
  · rw [written]
    exact hidden.written
  rw [kept]
  exact hidden.session

theorem disconnected : task.disconnected.Hidden := by
  refine ⟨hidden.written, fun session found => ?_⟩
  cases found

theorem push (envelope : Envelope) : (task.push envelope).Hidden := by
  unfold Task.push
  split
  · exact hidden
  · exact hidden.same rfl rfl

theorem onCommandOffline (command : Command) : (task.onCommandOffline command).Hidden := by
  cases command with
  | send envelope => exact hidden.push envelope
  | upload blob | download blob => exact hidden.same rfl rfl
  | groupCreate group | groupCommit group | plain => exact hidden

variable (hides : session.Hides)
include hides

theorem within (written : after.written = task.written) (kept : after.session = some session) :
    after.Hidden := by
  refine ⟨by rw [written]; exact hidden.written, fun other found => ?_⟩
  cases kept.symm.trans found
  exact hides

theorem proceed {lines : Lines} (quiet : (task.lines session).Quiet lines) (going : Bool) :
    (task.proceed session going lines).Hidden := by
  refine ⟨fun frame mem => ?_, fun after found => ?_⟩
  · rcases quiet.written frame mem with before | harmless
    · exact hidden.written frame before
    · exact harmless
  cases going with
  | false => cases found
  | true =>
    cases found
    exact ⟨hides.offered, fun published => quiet.anonymous (hides.anonymous published)⟩

theorem resend (steady : session.submission.steady = true)
    (resent : task.resend session = some after) : after.Hidden := by
  have flushed : (task.lines session).Steadily ((task.lines session).flushOutbox task.outbox).2 :=
    flushOutbox_steadily steady task.outbox
  unfold Task.resend at resent
  split at resent
  next lines sent =>
    rw [sent] at flushed
    cases resent
    exact hidden.proceed hides flushed.quiet false
  next lines sent =>
    rw [sent] at flushed
    split at resent
    · cases resent
    next going _ uploads downloads resumed =>
      cases resent
      have later := resumeTransfers_steadily flushed.steady resumed
      have changed : ({ task with uploads, downloads } : Task).Hidden := hidden.same rfl rfl
      exact changed.proceed hides (flushed.trans later).quiet going

theorem blobFrame {frame : BlobFrame}
    (guarded : session.submission.steady = true ∨ frame.pumps task.uploads = false)
    (applied : task.blobFrame session frame = some after) : after.Hidden := by
  unfold Task.blobFrame at applied
  split at applied
  · cases applied
  next going result handled =>
    cases applied
    have changed : ({ task with
        uploads := result.uploads
        downloads := result.downloads } : Task).Hidden := hidden.same rfl rfl
    exact changed.proceed hides (handleBlobFrame_quiet guarded handled) going

theorem sequencer (attended : session.submission.attended = true) (frame : Frame) :
    (task.sequencer session frame).Hidden := by
  have steady := Submission.steady_of_attended attended
  have handedOver : (task.lines session).Steadily ((task.lines session).sendFrame frame).2 :=
    sendFrame_steadily steady frame
  have quiet := handedOver.quiet
  have taken : ((task.lines session).sendFrame frame).1 = .sent := by
    cases submitting : session.submission with
    | authenticated =>
      rw [submitting] at attended
      cases attended
    | anonymous =>
      rw [submitting] at attended
      obtain ⟨up, goesOn⟩ := Bool.and_eq_true_iff.mp attended
      simp [sendFrame, Task.lines, submitting, up,
        submit_of_goesOn (Option.isNone_iff_eq_none.mp goesOn)]
  have handed : (task.lines session).sendSequencer frame =
      (task.lines session).sendFrame frame := by
    unfold sendSequencer
    split
    next waits =>
      rw [waits] at taken
      cases taken
    · rfl
  unfold Task.sequencer
  rw [handed]
  split
  next lines found =>
    rw [found] at quiet
    exact hidden.proceed hides quiet false
  next lines _ found =>
    rw [found] at quiet
    exact hidden.proceed hides quiet true

theorem plain (count : Nat) : (task.plain session count).Hidden :=
  hidden.proceed hides (writePlain_quiet _ count) _

theorem refused (id : String) (rateLimited : Bool) :
    (task.refused session id rateLimited).Hidden := by
  unfold Task.refused
  split
  · have limited : ({ session with retry := true } : Session).Hides :=
      ⟨hides.offered, hides.anonymous⟩
    exact hidden.within limited rfl rfl
  · exact hidden.same rfl rfl

theorem onCommand (guarded : session.guards task (.command command) = true)
    (handled : task.onCommand session command = some after) : after.Hidden := by
  cases command with
  | send envelope =>
    have queued := hidden.push envelope
    unfold Task.onCommand at handled
    dsimp only at handled
    split at handled
    next published =>
      have steady : session.submission.steady = true := by
        simpa [guards, published] using guarded
      cases handled
      exact queued.proceed hides (submit_steadily steady envelope).quiet _
    · cases handled
      exact queued
  | upload blob chunks =>
    have queued : (task.queueUpload blob chunks).Hidden := hidden.same rfl rfl
    unfold Task.onCommand at handled
    dsimp only at handled
    split at handled
    next published =>
      have steady : session.submission.steady = true := by
        simpa [guards, published] using guarded
      split at handled
      · cases handled
      next going _ uploads pumped =>
        cases handled
        have changed : ({ task.queueUpload blob chunks with uploads } : Task).Hidden :=
          queued.same rfl rfl
        exact changed.proceed hides (pumpUpload_steadily steady pumped).quiet going
    · cases handled
      exact queued
  | download blob total =>
    have queued : (task.queueDownload blob total).Hidden := hidden.same rfl rfl
    unfold Task.onCommand at handled
    dsimp only at handled
    split at handled
    next published =>
      have steady : session.submission.steady = true := by
        simpa [guards, published] using guarded
      cases handled
      have changed : ∀ downloads,
          ({ task.queueDownload blob total with downloads } : Task).Hidden :=
        fun _ => queued.same rfl rfl
      exact (changed _).proceed hides (requestDownloads_steadily steady _).quiet _
    · cases handled
      exact queued
  | groupCreate group | groupCommit group =>
    cases handled
    exact hidden.sequencer hides guarded _
  | plain =>
    cases handled
    exact hidden.plain hides 1

end

section Required

section

variable (hidden : task.Hidden)
include hidden

theorem onPublished (hides : session.Hides) (offers : setup.submitAuthenticated = false)
    (handled : Task.onPublished setup task session = some after) :
    after.Hidden := by
  unfold Task.onPublished at handled
  split at handled
  · cases handled
    exact hidden
  have chosen : session.offered = true ∧ ¬setup.submitAuthenticated = true :=
    ⟨hides.offered, by simp [offers]⟩
  simp only [if_pos chosen] at handled
  have starts : ({ session with
      published := true
      submission := .anonymous spawn } : Session).Hides :=
    ⟨hides.offered, fun _ => rfl⟩
  exact hidden.resend starts rfl handled

theorem onRelay (current : task.session = some session) (offers : setup.submitAuthenticated = false)
    {frame : ServerFrame} (guarded : session.guards task (.relay frame) = true)
    (handled : Task.onRelay setup task session frame = some after) :
    after.Hidden := by
  have hides := hidden.session session current
  cases frame with
  | published => exact hidden.onPublished hides offers handled
  | sent id =>
    cases handled
    exact hidden.same rfl rfl
  | rejected id rateLimited =>
    cases handled
    exact hidden.refused hides id rateLimited
  | blob frame =>
    refine hidden.blobFrame hides ?_ handled
    simpa [guards] using guarded
  | error =>
    cases handled
    split
    · exact hidden
    · exact hidden.disconnected
  | plain replies =>
    cases handled
    exact hidden.plain hides replies

variable {setup : Setup} (required : setup.requireAnonymous = true)
include required

theorem onEvent (current : task.session = some session)
    (submitting : session.submission = .anonymous submitter)
    (guarded : session.guards task (.event event) = true)
    (handled : Task.onEvent setup task session submitter event = some after) : after.Hidden := by
  have hides := hidden.session session current
  have gone : ∀ other, (if setup.requireAnonymous then some task.disconnected else other) =
      some after → after.Hidden := by
    intro other ended
    rw [if_pos required] at ended
    cases ended
    exact hidden.disconnected
  rcases event with _ | event
  · exact gone _ handled
  cases event with
  | ready =>
    have goesOn : submitter.left.isNone = true := by
      simpa [guards, submitting] using guarded
    have up : ({ session with
        submission := .anonymous { submitter with ready := true } } : Session).Hides :=
      ⟨hides.offered, fun _ => rfl⟩
    exact hidden.resend up (by simp [Submission.steady, goesOn]) handled
  | sent id =>
    cases handled
    exact hidden.same rfl rfl
  | rejected id rateLimited =>
    cases handled
    exact hidden.refused hides id rateLimited
  | blob =>
    refine hidden.blobFrame hides ?_ handled
    simpa [guards] using guarded
  | group =>
    cases handled
    exact hidden
  | down =>
    cases handled
    have off : ({ session with
        submission := .anonymous { submitter with ready := false } } : Session).Hides :=
      ⟨hides.offered, fun _ => rfl⟩
    exact hidden.within off rfl rfl
  | refused => exact gone _ handled

theorem connect (offered : Bool) : (Task.connect setup task offered).Hidden := by
  unfold Task.connect
  split
  · exact hidden
  next offers =>
    have hides : Session.Hides ⟨offered, false, false, none, .authenticated⟩ := by
      refine ⟨by simpa [required] using offers, ?_⟩
      rintro ⟨⟩
    exact hidden.plain hides 1

theorem inSession (current : task.session = some session)
    (offers : setup.submitAuthenticated = false) (guarded : session.guards task move = true)
    (handled : Task.inSession setup task session move = some after) : after.Hidden := by
  have hides := hidden.session session current
  cases move with
  | connect offered => cases handled
  | command command => exact hidden.onCommand hides guarded handled
  | relay => exact hidden.onRelay current offers guarded handled
  | event event =>
    unfold Task.inSession at handled
    dsimp only at handled
    split at handled
    next submitter submitting => exact hidden.onEvent required current submitting guarded handled
    · cases handled
  | retry =>
    unfold Task.inSession at handled
    dsimp only at handled
    split at handled
    · cases handled
      have due : ({ session with retry := false } : Session).Hides :=
        ⟨hides.offered, hides.anonymous⟩
      refine hidden.proceed due ?_ _
      rcases Bool.or_eq_true_iff.mp guarded with steady | nothing
      · exact (flushOutbox_steadily steady task.outbox).quiet
      rw [List.isEmpty_iff.mp nothing]
      exact .refl _
    · cases handled
  | keepalive =>
    cases handled
    exact hidden.plain hides 1
  | breaks left =>
    cases handled
    have broken : ({ session with left := some left } : Session).Hides :=
      ⟨hides.offered, hides.anonymous⟩
    exact hidden.within broken rfl rfl
  | stops left =>
    unfold Task.inSession at handled
    dsimp only at handled
    split at handled
    next submitter submitting =>
      cases handled
      have stopping : ({ session with
          submission := .anonymous { submitter with left := some left } } : Session).Hides :=
        ⟨hides.offered, fun _ => rfl⟩
      exact hidden.within stopping rfl rfl
    · cases handled
  | disconnect =>
    cases handled
    exact hidden.disconnected
  | rehash =>
    unfold Task.inSession at handled
    dsimp only at handled
    split at handled
    · cases handled
      exact hidden.same rfl rfl
    · cases handled

theorem step (offers : setup.submitAuthenticated = false) (guarded : task.Guarded move)
    (ran : Task.step setup task move = some after) : after.Hidden := by
  unfold Task.step at ran
  split at ran
  next current =>
    rw [Task.Guarded, current] at guarded
    exact hidden.inSession required current offers guarded ran
  · split at ran
    · cases ran
      exact hidden.connect required _
    · cases ran
      exact hidden.onCommandOffline _
    · cases ran

end

end Required

end Task.Hidden

/-- With anonymity required, a run whose steps are all guarded writes nothing that is
submitted to the authenticated connection. -/
theorem required_anonymity_kept
    {setup : Setup} {outbox : List Envelope} {moves : List Move} {final : Task}
    (required : setup.requireAnonymous = true) (offers : setup.submitAuthenticated = false)
    (each : EachState (Task.step setup) Task.Guarded (Task.start outbox) moves)
    (ended : run (Task.step setup) (Task.start outbox) moves = some final) :
    ∀ frame ∈ final.written, frame.submitted = false := by
  have preserve : ∀ move state next, Task.Hidden state → Task.Guarded state move →
      Task.step setup state move = some next → Task.Hidden next :=
    fun _ _ _ hidden guarded stepped => hidden.step required offers guarded stepped
  exact (EachState.run_keeps each (Task.Hidden.start outbox) preserve ended).written

namespace Required

def setup : Setup :=
  ⟨false, true⟩

def note (id : String) : Envelope :=
  ⟨id, [1]⟩

def day : List Move :=
  [.command (.send (note "first")), .connect true, .relay .published,
    .command (.upload "file" [[1], [2]]), .event (some .ready),
    .command (.groupCommit "group" 1 [7]), .event (some (.sent "first")),
    .event (some .down), .command (.send (note "second")), .event (some .ready),
    .event (some (.blob (.ack "file" false))), .event none]

end Required

theorem kept_over_a_day :
    (run (Task.step Required.setup) (Task.start []) Required.day).any (fun final =>
      final.written = [.plain] && final.session = none) = true ∧
    ∀ final, run (Task.step Required.setup) (Task.start []) Required.day = some final →
      ∀ frame ∈ final.written, frame.submitted = false :=
  ⟨by decide +kernel, fun _ ended => required_anonymity_kept rfl rfl (by decide +kernel) ended⟩

/-- Sequencer frames go to the authenticated connection until the anonymous one is up,
and so does the rest of the outbox once the submission task has ended. -/
theorem required_anonymity_given_up : (run (Task.step Required.setup) (Task.start [])
      [.connect true, .command (.groupCommit "group" 1 [7])]).any (fun final =>
        final.written = [.plain, .groupCommit "group" 1 [7]]) = true ∧
    (run (Task.step Required.setup) (Task.start [Required.note "first", Required.note "second"])
      [.connect true, .relay .published, .stops 0, .event (some .ready)]).any (fun final =>
        final.written = [.plain, .send (Required.note "second")]) = true := by
  constructor
  · decide +kernel
  · decide +kernel

end Silver.Client.Connection
