import CompileService.Http.Confinement
import CompileService.Http.Lemmas.Handlers

/-!
# The bytes and the paths

The handlers at two levels: the one of `Response` says which paths are opened for an answer, the one of `Answer` which
bytes are sent. All bytes that are not from the error page belong to a path that the first level names.
-/

namespace CompileService.Http

open CompileService.Base CompileService.Wire

/-- Everything that can fail succeeds, but for the `GetAbsPath` of `RequestHandler`. -/
def Outcome.all (ap : Bool) : Outcome := ⟨ap, true, true, true, true, true, fun _ => true, fun _ => true, true⟩

/-- What is sent between two states is a beginning of the response with the error page. -/
def SendsError (req : CStr) (out out' : Outlet) : Prop :=
  ∃ bytes, bytes <+: pageAnswer (errText req) ∧ out'.queue = out.queue ++ bytes

namespace Disk

variable {d : Disk} {run : Run} {out out' : Outlet} {ap req root : CStr} {ret : Int}

/-- `FileReqHandler` sends nothing unless the file can be opened. -/
theorem fileReqHandler_served (habs : absPath req root = some ap)
    (h : d.fileReqHandler run out req root = .ok (ret, out')) :
    out' = out ∨ ∃ contents, d.openFile ap = some contents := by
  cases hfile : d.openFile ap with
  | none =>
      rw [fileReqHandler_unreadable habs hfile] at h
      exact Or.inl (Prod.mk.inj (Except.ok.inj h)).2.symm
  | some contents => exact Or.inr ⟨contents, rfl⟩

/-- For each run of `RequestHandler` down to the bytes there is one down to the paths, and if that serves no path,
then no bytes are sent but those of an error page. -/
theorem requestHandler_served (hreq : 0 ∉ req) (hlen : req.length < 2048)
    (h : d.requestHandler run out req root = .ok (ret, out')) :
    ∃ o sent, CompileService.Http.requestHandler d.toFileSystem o req root = .ok sent ∧
      (sent = [] → SendsError req out out') := by
  cases hap : run.ap with
  | false =>
      have hrun : d.requestHandler run out req root = badReqHandler run out req := by
        simp only [requestHandler, hap]
        rfl
      rw [hrun] at h
      exact ⟨.all false, [], rfl, fun _ => badReqHandler_initial hreq hlen h⟩
  | true =>
      cases habs : absPath req root with
      | none =>
          rw [requestHandler_no_root hap habs] at h
          cases h
      | some ap =>
          have hget : getAbsPath true req root = .ok (some ap) := getAbsPath_of_absPath habs true
          cases haccess : d.access ap with
          | false =>
              rw [requestHandler_absent hap habs haccess] at h
              refine ⟨.all true, [], ?_, fun _ => badReqHandler_initial hreq hlen h⟩
              simp only [CompileService.Http.requestHandler, Outcome.all, hget, Exec.ok_bind, haccess]
              rfl
          | true =>
              cases hdir : d.opendir ap with
              | none =>
                  have hcount : getEntryCount d.toFileSystem ap < 0 := getEntryCount_neg_iff.mpr hdir
                  rw [requestHandler_file hap habs haccess hdir] at h
                  refine ⟨.all true, (d.openFile ap).toList.map (.file ap), ?_, fun hsent => ?_⟩
                  · simp only [CompileService.Http.requestHandler, Outcome.all, hget, Exec.ok_bind, haccess, if_true,
                      if_pos hcount, CompileService.Http.fileReqHandler]
                    cases d.openFile ap with
                    | none => rfl
                    | some contents => rfl
                  · rcases fileReqHandler_served habs h with rfl | ⟨contents, hfile⟩
                    · exact ⟨[], List.nil_prefix, (List.append_nil _).symm⟩
                    · rw [hfile] at hsent
                      cases hsent
              | some entries =>
                  have hcount : ¬ getEntryCount d.toFileSystem ap < 0 := by
                    rw [getEntryCount_neg_iff, hdir]
                    exact Option.some_ne_none entries
                  refine ⟨.all true, [.listing ap, .listing ap], ?_, fun hsent => by cases hsent⟩
                  simp only [CompileService.Http.requestHandler, Outcome.all, hget, Exec.ok_bind, haccess, if_true,
                    if_neg hcount, CompileService.Http.dirReqHandler, CompileService.Http.getEntry, hdir]
                  rfl

/-- A request that stays inside the root gets nothing but an error page, or what comes from a path at or below the
root. -/
theorem requestHandler_confined (hreq : 0 ∉ req) (hlen : req.length < 2048) (hstays : StaysInside root req)
    (h : d.requestHandler run out req root = .ok (ret, out')) :
    SendsError req out out' ∨ ∃ path, absPath req root = some path ∧ AtOrBelow root path := by
  obtain ⟨o, sent, hsent, hnone⟩ := requestHandler_served hreq hlen h
  cases sent with
  | nil => exact Or.inl (hnone rfl)
  | cons s sent =>
      have hpath := requestHandler_path hsent s List.mem_cons_self
      exact Or.inr ⟨s.path, hpath, (atOrBelow_iff hpath).mpr hstays⟩

end Disk

end CompileService.Http
