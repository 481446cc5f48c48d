import Lz4Frame.Platform.Reference
import Lz4Frame.Proofs.Compressor.Frames
import Lz4Frame.Proofs.Stream.Sink
import Lz4Frame.Stream.Writer

/-!
# What a writer has written

A writer hands every byte that its compressor gives to the sink once, and never again.  So a sink
that was spared holds the frame of all that was acknowledged when the frame is closed, and any other
holds a frame with bytes missing (`finish_complete`).  The header is no exception: a sink that fails
while it is written never gets it (`finish_without_header`).
-/

namespace Lz4Frame

/-! ## Requests -/

/-- What a caller asks of a writer inside a frame. -/
inductive Request
  | write (content : Bytes)
  | flush

/-- The content of the writes that were acknowledged. -/
def acknowledged : List Request → List (Except IoError Unit) → Bytes
  | .write content :: requests, .ok () :: results => content ++ acknowledged requests results
  | _ :: requests, _ :: results => acknowledged requests results
  | _, _ => []

namespace Writer

section

variable [Platform]

/-- Makes a request; tells whether it was granted. -/
def request (writer : Writer) : Request → Writer × Except IoError Unit
  | .write content =>
      let (writer, answer) := writer.write content
      (writer, answer.value.map fun _ => ())
  | .flush =>
      let (writer, answer) := writer.flush
      (writer, answer.value)

/-- Makes requests, one after another, whether they are granted or not. -/
def requests (writer : Writer) : List Request → Writer × List (Except IoError Unit)
  | [] => (writer, [])
  | request :: rest =>
      let (next, result) := writer.request request
      let (last, results) := next.requests rest
      (last, result :: results)

/-! ## Sending -/

/-- What has become of the bytes that a compressor made: a header that waits is all of them, and
otherwise the sink holds them, those aside that it has cost. -/
def Sent (sink : Sink) (header : Option Bytes) (made : Bytes) : Prop :=
  match header with
  | some header => made = header ∧ sink.content = #[] ∧ sink.Spared
  | none => sink.content.toList.Sublist made
      ∧ (sink.Spared → sink.content.toList = made)
      ∧ (¬ sink.Spared → sink.content.size < made.length)

omit [Platform] in
/-- Bytes that go to the sink once the header is out of the way. -/
theorem sent_writeAll {sink : Sink} {made : Bytes} (h : Sent sink none made) (bytes : Bytes) :
    ∃ next result, sink.writeAll bytes = (next, result) ∧ Sent next none (made ++ bytes)
      ∧ (result = .ok () → (next.Spared ↔ sink.Spared)) ∧ (result ≠ .ok () → ¬ next.Spared) := by
  rcases h with ⟨hsub, hkept, hlost⟩
  have hsize : sink.content.toList.length = sink.content.size := Array.length_toList
  rcases sink.writeAll_cases bytes with ⟨next, hwrite, hcontent, hspared⟩
    | ⟨next, cause, count, hwrite, hcount, hcontent, hcost⟩
  · refine ⟨next, .ok (), hwrite, ⟨?_, ?_, ?_⟩, fun _ => hspared, fun hne => absurd rfl hne⟩
    · rw [hcontent, Array.toList_appendList]
      exact hsub.append (List.Sublist.refl _)
    · intro hkeeps
      rw [hcontent, Array.toList_appendList, hkept (hspared.mp hkeeps)]
    · intro hloses
      have := hlost fun hkeeps => hloses (hspared.mpr hkeeps)
      rw [hcontent, size_append_list, List.length_append]
      omega
  · refine ⟨next, .error cause, hwrite, ⟨?_, fun hkeeps => absurd hkeeps hcost, fun _ => ?_⟩,
      nofun, fun _ => hcost⟩
    · rw [hcontent, Array.toList_appendList]
      exact hsub.append (List.take_sublist _ _)
    · have := hsub.length_le
      rw [hcontent, size_append_list, List.length_append, List.length_take]
      omega

omit [Platform] in
/-- What is sent goes to the sink behind the header, and the header is gone whatever happens. -/
theorem send_sent (writer : Writer) {made : Bytes} (h : Sent writer.sink writer.header made)
    (bytes : Bytes) :
    ∃ sink result, writer.send bytes = (⟨writer.compressor, sink, none⟩, result)
      ∧ Sent sink none (made ++ bytes)
      ∧ (result = .ok () → (sink.Spared ↔ writer.sink.Spared))
      ∧ (result ≠ .ok () → ¬ sink.Spared) := by
  rcases writer with ⟨compressor, sink, header⟩
  simp only at h ⊢
  cases header with
  | none =>
      rcases sent_writeAll h bytes with ⟨next, result, hwrite, hsent, hok, hfailed⟩
      exact ⟨next, result, by simp only [send, hwrite], hsent, hok, hfailed⟩
  | some header =>
      rcases h with ⟨rfl, hempty, hspared⟩
      have hnothing : Sent sink none [] := by
        exact ⟨by simp [hempty], fun _ => by simp [hempty], fun hloses => absurd hspared hloses⟩
      rcases sent_writeAll hnothing made with ⟨middle, result, hwrite, hsent, hok, hfailed⟩
      rw [List.nil_append] at hsent
      cases result with
      | error cause =>
          -- the header is not sent again, and nothing behind it is sent now
          have hcost := hfailed (by simp)
          refine ⟨middle, .error cause, by simp only [send, hwrite], ?_, nofun, fun _ => hcost⟩
          rcases hsent with ⟨hsub, -, hlost⟩
          refine ⟨hsub.trans (List.sublist_append_left _ _), fun hkeeps => absurd hkeeps hcost,
            fun hloses => ?_⟩
          have := hlost hloses
          rw [List.length_append]
          omega
      | ok _ =>
          rcases sent_writeAll hsent bytes with ⟨next, result, hwrite', hsent', hok', hfailed'⟩
          refine ⟨next, result, by simp only [send, hwrite, hwrite'], hsent', fun hres => ?_,
            hfailed'⟩
          rw [hok' hres, hok rfl]

/-! ## Inside a frame -/

/-- What a writer has done since it was made: `payload` is what its compressor has taken, `made` is
what it gave, and `acked` is what was acknowledged. -/
structure Tracks (writer : Writer) (prefs : Preferences) (payload made acked : Bytes) : Prop where
  within : writer.compressor.Within prefs payload made
  sent : Sent writer.sink writer.header made
  acked_eq : writer.sink.Spared → acked = payload

theorem write_tracks {writer : Writer} {prefs : Preferences} {payload made acked : Bytes}
    (h : writer.Tracks prefs payload made acked) (content : Bytes) :
    ∃ next result payload' made', writer.request (.write content) = (next, result)
      ∧ next.Tracks prefs payload' made' (acked ++ acknowledged [.write content] [result]) := by
  rcases writer with ⟨compressor, sink, header⟩
  rcases h with ⟨hwithin, hsent, hacked⟩
  simp only at hwithin hsent hacked
  by_cases hempty : content = []
  · refine ⟨⟨compressor, sink, header⟩, .ok (), payload, made, ?_, ⟨hwithin, hsent, ?_⟩⟩
    · simp only [request, write, hempty, List.isEmpty_nil, ↓reduceIte]
      rfl
    · simpa [acknowledged, hempty] using hacked
  · have hisEmpty : content.isEmpty = false := by simpa using hempty
    rcases Compressor.update_cases hwithin content with ⟨cause, events, hupdate⟩
      | ⟨next, blocks, events, hupdate, hnext⟩
    · -- the compressor has refused, and nothing has changed
      refine ⟨⟨compressor, sink, header⟩, .error (.codec cause), payload, made, ?_,
        ⟨hwithin, hsent, ?_⟩⟩
      · simp only [request, write, hisEmpty, hupdate, Bool.false_eq_true, ↓reduceIte]
        rfl
      · simpa [acknowledged] using hacked
    · rcases send_sent ⟨next, sink, header⟩ hsent blocks
          with ⟨sink', result, hsend, hsent', hok, hfailed⟩
      refine ⟨⟨next, sink', none⟩, result, payload ++ content, made ++ blocks, ?_,
        ⟨hnext, hsent', fun hspared => ?_⟩⟩
      · simp only [request, write, hisEmpty, hupdate, hsend, Bool.false_eq_true, ↓reduceIte]
        cases result <;> rfl
      · -- the compressor has the content in either case; a failure is told by the sink
        cases result with
        | error cause => exact absurd hspared (hfailed (by simp))
        | ok _ => simp [acknowledged, hacked ((hok rfl).mp hspared)]

theorem flush_tracks {writer : Writer} {prefs : Preferences} {payload made acked : Bytes}
    (h : writer.Tracks prefs payload made acked) :
    ∃ next result made', writer.request .flush = (next, result)
      ∧ next.Tracks prefs payload made' acked := by
  rcases writer with ⟨compressor, sink, header⟩
  rcases h with ⟨hwithin, hsent, hacked⟩
  simp only at hwithin hsent hacked
  rcases Compressor.flush_within hwithin with ⟨next, block, hflush, hnext, -, -⟩
  rcases send_sent ⟨next, sink, header⟩ hsent block
      with ⟨sink', result, hsend, hsent', hok, hfailed⟩
  cases result with
  | error cause =>
      refine ⟨⟨next, sink', none⟩, .error cause, made ++ block, ?_,
        ⟨hnext, hsent', fun hspared => absurd hspared (hfailed (by simp))⟩⟩
      simp only [request, flush, hflush, Traced.ofCall, sendAndFlush, hsend]
  | ok _ =>
      rcases sink'.flush_spared with ⟨hcontent, hspared⟩
      refine ⟨⟨next, sink'.flush.1, none⟩, sink'.flush.2, made ++ block, ?_,
        ⟨hnext, ?_, fun hkeeps => ?_⟩⟩
      · simp only [request, flush, hflush, Traced.ofCall, sendAndFlush, hsend]
      · simpa only [Sent, hcontent, hspared] using hsent'
      · exact hacked ((hok rfl).mp (hspared.mp hkeeps))

/-- A request keeps track, whether it is granted or not. -/
theorem request_tracks {writer : Writer} {prefs : Preferences} {payload made acked : Bytes}
    (h : writer.Tracks prefs payload made acked) (request : Request) :
    ∃ next result payload' made', writer.request request = (next, result)
      ∧ next.Tracks prefs payload' made' (acked ++ acknowledged [request] [result]) := by
  cases request with
  | write content => exact write_tracks h content
  | flush =>
      rcases flush_tracks h with ⟨next, result, made', hrequest, hnext⟩
      refine ⟨next, result, payload, made', hrequest, ?_⟩
      simpa [acknowledged] using hnext

omit [Platform] in
theorem acknowledged_cons (request : Request) (requests : List Request)
    (result : Except IoError Unit) (results : List (Except IoError Unit)) :
    acknowledged (request :: requests) (result :: results)
      = acknowledged [request] [result] ++ acknowledged requests results := by
  cases request <;> cases result <;> simp [acknowledged]

/-- A row of requests keeps track, whichever of them are granted. -/
theorem requests_tracks {writer : Writer} {prefs : Preferences} {payload made acked : Bytes}
    (h : writer.Tracks prefs payload made acked) (row : List Request) :
    ∃ next results payload' made', writer.requests row = (next, results)
      ∧ next.Tracks prefs payload' made' (acked ++ acknowledged row results) := by
  -- on the requests; what was acknowledged so far stands in front
  induction row generalizing writer payload made acked with
  | nil => exact ⟨writer, [], payload, made, rfl, by simpa [acknowledged] using h⟩
  | cons request row ih =>
      rcases request_tracks h request with ⟨middle, result, payload', made', hrequest, hmiddle⟩
      rcases ih hmiddle with ⟨next, results, payload'', made'', hrequests, hnext⟩
      refine ⟨next, result :: results, payload'', made'', ?_, ?_⟩
      · simp only [requests, hrequest, hrequests]
      · rw [acknowledged_cons, ← List.append_assoc]
        exact hnext

/-! ## The end of the frame -/

/-- A writer that closes its frame has made one complete frame.  The sink holds that frame with some
bytes missing, and none are missing exactly if the sink was spared; then the frame's content is what
was acknowledged. -/
theorem finish_complete (gate : Gate) (prefs : Preferences) (hvalid : prefs.validate = .ok ())
    (hdeclared : prefs.declaredSize = none) (writes flushes : List Answer) (row : List Request) :
    ∃ writer, (new gate prefs { writes, flushes }).value = .ok writer
      ∧ ∀ sink events, (writer.requests row).1.finish = (sink, ⟨.ok (), events⟩) →
          ∃ payload frame, IsFrame (.ofPreferences prefs) payload frame
            ∧ sink.content.toList.Sublist frame
            ∧ (sink.content.toList = frame ↔ sink.Spared)
            ∧ (sink.Spared → payload = acknowledged row (writer.requests row).2) := by
  rcases (Compressor.new gate).start_within hvalid with ⟨compressor, hstart, hwithin⟩
  refine ⟨⟨compressor, { writes, flushes }, some (Header.ofPreferences prefs).encode⟩, ?_, ?_⟩
  · simp only [new, hstart, Traced.ofCall]
  intro sink events hfinish
  have htracks : Tracks ⟨compressor, { writes, flushes }, some (Header.ofPreferences prefs).encode⟩
      prefs [] (Header.ofPreferences prefs).encode [] := by
    refine ⟨hwithin, ⟨rfl, rfl, ?_⟩, fun _ => rfl⟩
    intro call hmem
    simp at hmem
  rcases requests_tracks htracks row with ⟨last, results, payload, made, hrequests, hlast⟩
  rw [hrequests] at hfinish ⊢
  rcases hlast with ⟨hwithin', hsent, hacked⟩
  have hzero : prefs.declaredOrZero = 0 := by
    rw [Preferences.declaredOrZero, hdeclared]
    rfl
  rcases Compressor.finish_within hwithin' (by omega) with ⟨closed, -, hgood, -⟩
  rcases hgood (.inl hzero) with ⟨trailer, hclose, hframe⟩
  rcases send_sent ⟨closed, last.sink, last.header⟩ hsent trailer
      with ⟨sink', result, hsend, hsent', hok, -⟩
  simp only [finish, hclose, Traced.ofCall, sendAndFlush, hsend] at hfinish
  cases result with
  | error cause => simp at hfinish
  | ok _ =>
      simp only [Prod.mk.injEq] at hfinish
      rcases hfinish with ⟨rfl, -⟩
      rcases sink'.flush_spared with ⟨hcontent, hspared⟩
      rcases hsent' with ⟨hsub, hkept, hlost⟩
      refine ⟨payload, made ++ trailer, hframe, by rwa [hcontent], ?_, fun hkeeps => ?_⟩
      · rw [hcontent, hspared]
        constructor
        · intro hwhole
          -- a sink that has cost bytes is shorter than the frame
          by_cases hkeeps : sink'.Spared
          · exact hkeeps
          · have hshort := hlost hkeeps
            rw [← Array.length_toList, hwhole] at hshort
            exact absurd hshort (Nat.lt_irrefl _)
        · exact hkept
      · simpa using (hacked ((hok rfl).mp (hspared.mp hkeeps))).symm

end

open Reference in
/-- Two writes with a flush between them, over a sink that takes a part, is interrupted and does not
pass on what it has taken, and over one that fails in the middle of a block: the first holds the
frame of both writes, and the second has lost bytes. -/
theorem finish_complete_faulty :
    (∃ writer sink events,
        (new .native {} {
            writes := [.limit 3, .fail .interrupted "interrupted", .limit 5]
            flushes := [.fail .other "full"] }).value = .ok writer
          ∧ (writer.requests [.write [1, 2, 3], .flush, .write [4]]).1.finish
              = (sink, ⟨.ok (), events⟩)
          ∧ IsFrame (.ofPreferences {}) [1, 2, 3, 4] sink.content.toList)
      ∧ ∃ writer sink events,
        (new .native {} { writes := [.limit 7, .limit 5, .fail .permissionDenied "denied"] }).value
            = .ok writer
          ∧ (writer.requests [.write [1, 2, 3], .flush, .write [4]]).1.finish
              = (sink, ⟨.ok (), events⟩)
          ∧ ∃ payload frame, IsFrame (.ofPreferences {}) payload frame
            ∧ sink.content.toList.Sublist frame ∧ sink.content.toList ≠ frame := by
  constructor
  · rcases finish_complete .native {} rfl rfl
      [.limit 3, .fail .interrupted "interrupted", .limit 5] [.fail .other "full"]
      [.write [1, 2, 3], .flush, .write [4]] with ⟨writer, hnew, hcomplete⟩
    obtain rfl := Except.ok.inj hnew
    generalize hrow : Writer.requests _ _ = row at hcomplete
    have hspared : row.1.finish.1.Spared := by
      rw [← hrow]
      decide +kernel
    have hgranted : row.1.finish.2.value.isOk = true := by
      rw [← hrow]
      decide +kernel
    have hacked : acknowledged [.write [1, 2, 3], .flush, .write [4]] row.2 = [1, 2, 3, 4] := by
      rw [← hrow]
      decide +kernel
    rcases hfinish : row.1.finish with ⟨sink, _ | ⟨⟩, events⟩
    · rw [hfinish] at hgranted
      cases hgranted
    · rw [hfinish] at hspared
      rcases hcomplete sink events hfinish with ⟨payload, frame, hframe, -, hwhole, hpayload⟩
      rw [hpayload hspared, hacked, ← hwhole.mpr hspared] at hframe
      exact ⟨_, sink, events, hnew, by rw [hrow, hfinish], hframe⟩
  · rcases finish_complete .native {} rfl rfl
      [.limit 7, .limit 5, .fail .permissionDenied "denied"] []
      [.write [1, 2, 3], .flush, .write [4]] with ⟨writer, hnew, hcomplete⟩
    obtain rfl := Except.ok.inj hnew
    generalize hrow : Writer.requests _ _ = row at hcomplete
    have hloses : ¬ row.1.finish.1.Spared := by
      rw [← hrow]
      decide +kernel
    have hgranted : row.1.finish.2.value.isOk = true := by
      rw [← hrow]
      decide +kernel
    rcases hfinish : row.1.finish with ⟨sink, _ | ⟨⟩, events⟩
    · rw [hfinish] at hgranted
      cases hgranted
    · rw [hfinish] at hloses
      rcases hcomplete sink events hfinish with ⟨payload, frame, hframe, hsub, hwhole, -⟩
      exact ⟨_, sink, events, hnew, by rw [hrow, hfinish], payload, frame, hframe, hsub,
        fun heq => hloses (hwhole.mp heq)⟩
open Reference in
/-- A sink that fails once, while the header is written to it: the caller goes on, the frame is
closed, and the sink holds the end mark alone. -/
theorem finish_without_header : ∃ writer sink events,
    (new .native {} { writes := [.fail .permissionDenied "denied"] }).value = .ok writer
      ∧ (writer.requests [.flush]).1.finish = (sink, ⟨.ok (), events⟩)
      ∧ ¬ ∃ payload, IsFrame (.ofPreferences {}) payload sink.content.toList := by
  generalize hcompressor : ((Compressor.new .native).start {}).1 = compressor
  have hflush : compressor.flush = (compressor, .ofCall (.ok [])) := by
    rw [← hcompressor]
    rfl
  obtain ⟨closed, hfinish⟩ :
      ∃ closed, compressor.finish = (closed, .ofCall (.ok SizeWord.endMark)) := by
    rw [← hcompressor]
    exact ⟨_, rfl⟩
  have hfailed : Sink.writeAll { writes := [.fail .permissionDenied "denied"] }
      (Header.ofPreferences {}).encode
        = ({ calls := #[.writeFailed 7 .permissionDenied] },
          .error (.device .permissionDenied "denied")) := by
    have hne : (Header.ofPreferences {}).encode ≠ [] := by decide
    rw [Sink.writeAll, dif_neg hne]
    rfl
  rcases Sink.writeAll_of_writes_nil
    { calls := #[.writeFailed 7 .permissionDenied] } rfl SizeWord.endMark
      with ⟨marked, hwrite, hcontent, -, hflushes⟩
  have hpassed : marked.flush = ({ marked with calls := marked.calls.push .flush }, .ok ()) := by
    rw [Sink.flush, hflushes]
  refine ⟨⟨compressor, { writes := [.fail .permissionDenied "denied"] },
    some (Header.ofPreferences {}).encode⟩, { marked with calls := marked.calls.push .flush },
    [.call none], ?_, ?_, ?_⟩
  · rw [← hcompressor]
    rfl
  · simp only [requests, request, flush, hflush, Traced.ofCall, sendAndFlush, send, hfailed,
      finish, hfinish, hwrite, hpassed]
  · rintro ⟨payload, hframe⟩
    have hlength := hframe.length_ge
    rw [hcontent] at hlength
    revert hlength
    decide

end Writer

end Lz4Frame
