import SuperExe.FastCgi.Stdin

/-! # The room a request has

`buf_data` has 65543 bytes and the iov a number of entries that
`fcgi_handler_new` computes from the number of header rows. Only
`fcgi_add_param_http_header` looks at what is left of the buffer, and nothing
looks at what is left of the iov. The check covers what it stands in front of;
the closing record and the records of the body come behind it.
-/

namespace SuperExe.FastCgi

open SuperExe.Core SuperExe.Lib SuperExe.Stream
open SuperExe.Http (Incoming headerLinks)

/-- Neither `fcgi_encode_request`, however long it runs, nor any later call of
`fcgi_stdin_chunk` writes behind `buf_data` or behind the entries of the iov. -/
def EncodesInside (files : Memory Int) (e : EncodeEnv) (r : Incoming) : Prop :=
  (∀ n, fcgiEncodeRequest n e r ≠ none) ∧
  ∀ n h, fcgiEncodeRequest n e r = some (.encoded h) → ∀ answers,
    (uploadMachine files).AllSteps (TakesAtMost files) (startUpload h (r.slice r.req.data)) answers →
    ((uploadMachine files).run (startUpload h (r.slice r.req.data)) answers).phase ≠ .crashed

/-- The condition. Where the last two header rows have the same known name, the
traversal of the headers never ends: then the iov must last until the buffer is
full. Everywhere else it is the buffer that must have room for the closing
record and for the headers of the records of the body. -/
def EncodeRoom (e : EncodeEnv) (r : Incoming) : Prop :=
  netFails e = true ∨
  (Links.EndsTwice r.p.headerList ∧
    1 + entriesAfter headerSize (allAdds (r.p.headerCount + bufSize) e r) ≤ iovEntries r) ∨
  (¬ Links.EndsTwice r.p.headerList ∧
    bufAfter headerSize (allAdds r.p.headerCount e r) + headerSize +
      headerUse (r.slice r.req.data).length ≤ bufSize)

section Loops

variable {e : EncodeEnv} {r : Incoming}

/-- The entries that any number of turns of a traversal that does not end take are
taken when the buffer is full. -/
theorem entriesAfter_loops (hadm : Admitted r.p) (hends : Links.EndsTwice r.p.headerList) (n : Nat)
    (e : EncodeEnv) :
    entriesAfter headerSize (allAdds n e r) ≤
      entriesAfter headerSize (allAdds (r.p.headerCount + bufSize) e r) := by
  rcases visitedAdds_loops hends with ⟨m, as, key, val, hm, hloop⟩
  rw [hadm.count] at hm
  rcases Nat.le_total n (r.p.headerCount + bufSize) with hn | hn
  · -- fewer turns visit a part of the nodes
    rcases visitedAdds_prefix hn ((headerLinks r.p).next none) with ⟨cs, hcs⟩
    unfold allAdds
    rw [← hcs, ← List.append_assoc, entriesAfter_append _ (serverParams e r ++ visitedAdds r n _) cs]
    exact Nat.le_add_right _ _
  · -- more turns visit the last header again, which is refused then
    obtain ⟨j, rfl⟩ : ∃ j, n = m + ((r.p.headerCount + bufSize - m) + j) :=
      ⟨n - (r.p.headerCount + bufSize), by omega⟩
    obtain ⟨k, hk⟩ : ∃ k, r.p.headerCount + bufSize = m + k :=
      ⟨r.p.headerCount + bufSize - m, by omega⟩
    have hfull : bufSize < bufAfter headerSize (serverParams e r ++ as) + k := by
      have := le_bufAfter headerSize (serverParams e r ++ as)
      unfold headerSize at this ⊢
      omega
    have hrest := entriesAfter_replicate key val hfull j
    rw [hk, Nat.add_sub_cancel_left]
    unfold allAdds
    rw [(hloop (k + j)).2, (hloop k).2, List.replicate_add, ← List.append_assoc, ← List.append_assoc,
      entriesAfter_append headerSize (serverParams e r ++ as ++ List.replicate k _),
      bufAfter_append headerSize (serverParams e r ++ as), hrest, Nat.add_zero, ← List.append_assoc]

/-- Where the traversal does not end, the call stays inside as long as its
parameters do. -/
theorem encode_looping_iff (hnet : netFails e = false) (hends : Links.EndsTwice r.p.headerList)
    (n : Nat) : fcgiEncodeRequest n e r ≠ none ↔
      1 + entriesAfter headerSize (allAdds n e r) ≤ iovEntries r := by
  rcases visitedAdds_loops hends with ⟨m, as, key, val, -, hloop⟩
  rcases addAll_spec (begun_sound r) (allAdds n e r) with ⟨hsome, -⟩
  rw [fcgiEncodeRequest_eq, hnet, if_neg Bool.false_ne_true, (hloop (n + 1)).1]
  have hbuf := bufAfter_allAdds_le n e r
  have hone : (begun r).iov.io.length = 1 := rfl
  have hentries : (begun r).iov.size = iovEntries r := rfl
  have hstart : (begun r).bufData.length = headerSize := rfl
  rw [hone, hentries, hstart] at hsome
  cases hall : addAll (begun r) (allAdds n e r) with
  | none =>
    rw [hall] at hsome
    simp only [Option.isSome_none, Bool.false_eq_true, false_iff, not_and] at hsome
    simpa using hsome hbuf
  | some x =>
    rw [hall] at hsome
    simp only [Option.isSome_some, true_iff] at hsome
    simpa using hsome.2

/-- The parameters in front of those that come behind `fcgi_add_param_net` have
room in any case. -/
theorem encode_failed (hnet : netFails e = true) (n : Nat) :
    ∃ h, fcgiEncodeRequest n e r = some (.failed h) := by
  have hcount : (firstParams e ++ netParams e).length ≤ 18 := by
    have := length_serverParams e r
    unfold serverParams at this
    rw [List.length_append] at this
    omega
  have hparam : ∀ a ∈ firstParams e ++ netParams e, ∃ key val, a = .param key val := by
    intro a ha
    exact serverParams_param e r a (List.mem_append_left _ ha)
  have hbuf := bufAfter_params_le headerSize hparam
  have hentries := entriesAfter_le headerSize (firstParams e ++ netParams e)
  have hroom : (addAll (begun r) (firstParams e ++ netParams e)).isSome := by
    rw [(addAll_spec (begun_sound r) _).1]
    show bufAfter headerSize _ ≤ bufSize ∧ 1 + entriesAfter headerSize _ ≤ 128 + r.p.headerCount * 3
    unfold headerSize bufSize at *
    omega
  rcases Option.isSome_iff_exists.mp hroom with ⟨x, hall⟩
  exact ⟨x.1, by rw [fcgiEncodeRequest_eq, hnet, if_pos rfl, hall, Option.map_some]⟩

end Loops

/-! ## The condition is exact -/

section Exact

variable {e : EncodeEnv} {r : Incoming}

/-- The traversal ends: everything is in the buffer or nothing is left to
write. -/
theorem encodesInside_ends (files : Memory Int) (hadm : Admitted r.p) (hnet : netFails e = false)
    (hends : ¬ Links.EndsTwice r.p.headerList) :
    EncodesInside files e r ↔ bufAfter headerSize (allAdds r.p.headerCount e r) + headerSize +
      headerUse (r.slice r.req.data).length ≤ bufSize := by
  have hlast := encode_ends hadm hnet hends (Nat.le_refl r.p.headerCount)
  -- what is handed over, and what the upload needs
  have hupload : ∀ {n h}, fcgiEncodeRequest n e r = some (.encoded h) →
      ((∀ answers, (uploadMachine files).AllSteps (TakesAtMost files)
          (startUpload h (r.slice r.req.data)) answers →
        ((uploadMachine files).run (startUpload h (r.slice r.req.data)) answers).phase ≠ .crashed) ↔
      (r.slice r.req.data ≠ [] → bufAfter headerSize (allAdds n e r) + headerSize +
        headerUse (r.slice r.req.data).length ≤ bufSize)) := by
    intro n h hrun
    rcases encoded_prepared hadm hrun with ⟨⟨q, rfl⟩, hbuf, -⟩
    rw [upload_inside_iff, Prepared.Room, hbuf]
  constructor
  · rintro ⟨hruns, huploads⟩
    have hclosing : bufAfter headerSize (allAdds r.p.headerCount e r) + headerSize ≤ bufSize := by
      by_contra hfull
      exact hruns _ (hlast.2 hfull)
    rcases hlast.1 hclosing with ⟨h, hrun⟩
    by_cases hne : r.slice r.req.data = []
    · rw [hne]
      exact hclosing
    · exact (hupload hrun).mp (huploads _ h hrun) hne
  · intro hfits
    have hall : ∀ n, bufAfter headerSize (allAdds n e r) ≤
        bufAfter headerSize (allAdds r.p.headerCount e r) := by
      intro n
      rcases Nat.le_total n r.p.headerCount with hn | hn
      · exact bufAfter_allAdds_mono hn e r
      · rw [(allAdds_eq hadm hends hn e).2]
    refine ⟨fun n => encode_some hadm hends hnet ?_, fun n h hrun => (hupload hrun).mpr fun _ => ?_⟩
    · have := hall n
      omega
    · have := hall n
      omega

/-- The condition on a request in any state of the parser. -/
theorem encodesInside_iff (files : Memory Int) (hadm : Admitted r.p) :
    EncodesInside files e r ↔ EncodeRoom e r := by
  unfold EncodeRoom
  cases hnet : netFails e with
  | true =>
    simp only [true_or, iff_true]
    constructor
    · intro n hnone
      rcases encode_failed (r := r) hnet n with ⟨h, hrun⟩
      rw [hnone] at hrun
      cases hrun
    · intro n h hrun
      rcases encode_failed (r := r) hnet n with ⟨h', hrun'⟩
      rw [hrun] at hrun'
      cases hrun'
  | false =>
    by_cases hends : Links.EndsTwice r.p.headerList
    · simp only [Bool.false_eq_true, false_or, hends, true_and, not_true_eq_false, false_and,
        or_false]
      constructor
      · rintro ⟨hruns, -⟩
        exact (encode_looping_iff hnet hends _).mp (hruns _)
      · intro hslots
        refine ⟨fun n => (encode_looping_iff hnet hends n).mpr ?_, fun n h hrun => ?_⟩
        · have := entriesAfter_loops hadm hends n e
          omega
        · exact absurd hends (encoded_prepared hadm hrun).2.2
    · simp only [Bool.false_eq_true, false_or, hends, false_and, not_false_eq_true, true_and]
      exact encodesInside_ends files hadm hnet hends

/-- The encoding of a request stays inside its buffers, in every run of its loop
and of the upload, exactly where there is the room that nothing checks. -/
theorem encode_inside_iff (files : Memory Int) (e : EncodeEnv) (req : Http.ParsedRequest)
    (B : Bytes) (l : Nat) (ls : List Nat) (counter : Nat) :
    EncodesInside files e (parsedRequest req B l ls counter) ↔
      EncodeRoom e (parsedRequest req B l ls counter) :=
  encodesInside_iff files (parsedRequest_admitted req B l ls counter)

/-- The request whose last two rows are `Host` rows. -/
def exampleHosts : Incoming :=
  parsedRequest Http.parsedRequestZero
    (bytes "GET /i.php HTTP/1.1\r\nHost: a\r\nHost: b\r\n\r\n") 41 [] 0

/-- Its traversal adds the second `Host` row until the iov is full, and then
goes on. -/
theorem encode_inside_hosts :
    (Http.feed (Http.parserFresh Http.parsedRequestZero
      (bytes "GET /i.php HTTP/1.1\r\nHost: a\r\nHost: b\r\n\r\n")) 41 []).1.1 = .ok ∧
    ¬ EncodesInside (fun _ _ => 0) exampleSite exampleHosts := by
  refine ⟨by decide, fun hinside => ?_⟩
  have hlist : exampleHosts.p.headerList = [.known Http.HeaderName.host, .known Http.HeaderName.host] := by
    decide
  have hends : Links.EndsTwice exampleHosts.p.headerList := ⟨[], .known Http.HeaderName.host, hlist⟩
  have hslots := (encode_looping_iff (r := exampleHosts) rfl hends 40).mp (hinside.1 40)
  revert hslots
  decide

end Exact

end SuperExe.FastCgi
