import TeleSync.Client.Confined
import TeleSync.Download.Report

/-!
# Failed downloads

A handler records the timestamp of a version before the download of that version runs, and downloads again only for a
later timestamp. The task reads its entry and does not change it.

* `TaskRun` : a download task and what happens to it; `TaskRun.Fails` : it ends without the version;
* `Downloads` : handling an entry starts a download;
* `failed_download_not_retried` : no failed download is retried.
-/

namespace TeleSync
open Program

/-- A run of `ptop_download_task`: the answers of the system and the download in it. -/
structure TaskRun where
  kernel : Kernel
  download : DownloadInput
  steps : List (DownloadEvent (Fin download.started))
  result : DownloadResult
  returned : doDownload download steps = some result

namespace TaskRun

/-- The client after the task, for the entry `fe` that the table has for `name`. -/
def after (r : TaskRun) (myIp : UInt32) (c : Client) (name : Name) (fe : FileRecord) : Client :=
  c.runTask r.kernel myIp name fe r.result.ret

/-- What the task returns. -/
def out (r : TaskRun) (myIp : UInt32) (c : Client) (name : Name) (fe : FileRecord) : Option TaskResult :=
  (ptopDownloadTask r.kernel myIp name fe r.result.ret c.m).1

/-- The task asks the owners in the entry and ends without the file: it reports a failure, or success without the
length or all pieces. -/
def Fails (r : TaskRun) (myIp : UInt32) (c : Client) (name : Name) (fe : FileRecord) : Prop :=
  r.download.owners = fe.owners ∧ ∃ res, r.out myIp c name fe = some res ∧
    (res.ret ≠ 0 ∨ fe.type ≠ .directory ∧ ¬ r.download.Complete r.result)

end TaskRun

/-- Handling `te` with this table starts a download. -/
def Downloads (myIp : UInt32) (ft : FileTable) (path : HandlerPath) (te : TransFileEntry) : Prop :=
  .download te.name ∈ (handleEntry myIp path ft te).2

instance (myIp : UInt32) (ft : FileTable) (path : HandlerPath) (te : TransFileEntry) :
    Decidable (Downloads myIp ft path te) :=
  inferInstanceAs (Decidable (.download te.name ∈ (handleEntry myIp path ft te).2))

section Retry
variable {myIp : UInt32} {path : HandlerPath} {ft : FileTable} {te : TransFileEntry}

/-- Only entries that add or modify start a download. -/
theorem Downloads.receives (h : Downloads myIp ft path te) : Receives path te := by
  cases path with
  | sync => exact Or.inl rfl
  | broadcast =>
    rw [Downloads, handleEntry, broadcastEntryHandler] at h
    cases hop : te.opType with
    | fileAdd => exact Or.inr (Or.inl hop)
    | fileModify => exact Or.inr (Or.inr hop)
    | fileDelete => simp [hop] at h
    | fileNone => simp [hop] at h
    | other code => simp [hop] at h

theorem Downloads.stamp_lt (h : Downloads myIp ft path te) : ft.stamp te.name < (te.timestamp : WithBot ℕ) := by
  have hmem := h
  rw [Downloads, handleEntry_eq myIp ft h.receives, actions_receive] at hmem
  split_ifs at hmem with hlt
  · exact hlt
  · cases hmem

theorem Downloads.stamp (h : Downloads myIp ft path te) :
    (handleEntry myIp path ft te).1.stamp te.name = te.timestamp := by
  rw [handleEntry_eq myIp ft h.receives, stamp_receive, Function.update_self, max_eq_right h.stamp_lt.le]

theorem ft_receive (K : Kernel) (c : Client) :
    (c.receive K myIp path te).ft = (handleEntry myIp path c.ft te).1 := by
  rw [Client.receive]
  rcases actions_handleEntry myIp path c.ft te with hacts | hacts | ⟨hacts, -⟩
  · rw [hacts]
    rfl
  · rw [hacts]
    rfl
  · rw [hacts]
    rfl

end Retry

/-- **A failed download is never retried.** For every client, entry and handler that starts a download and every way
in which the task fails: the timestamp of the entry stays recorded, and no handler that gets the entry again starts a
download. -/
theorem failed_download_not_retried (myIp : UInt32) (c : Client) (path : HandlerPath) (te : TransFileEntry)
    (hdownload : Downloads myIp c.ft path te) (r : TaskRun) (fe : FileRecord)
    (_hfe : (c.receive r.kernel myIp path te).ft.view te.name = some fe)
    (_hfail : r.Fails myIp (c.receive r.kernel myIp path te) te.name fe) :
    (r.after myIp (c.receive r.kernel myIp path te) te.name fe).ft.stamp te.name = te.timestamp ∧
      ∀ path', ¬ Downloads myIp (r.after myIp (c.receive r.kernel myIp path te) te.name fe).ft path' te := by
  have hft : (r.after myIp (c.receive r.kernel myIp path te) te.name fe).ft = (handleEntry myIp path c.ft te).1 :=
    ft_receive r.kernel c
  rw [hft]
  refine ⟨hdownload.stamp, fun path' hagain => ?_⟩
  exact absurd hagain.stamp_lt (not_lt.mpr hdownload.stamp.ge)

/-- A download of a file without owners. -/
def noOwners : TaskRun where
  kernel := plainKernel
  download := ⟨9, [], 1, true, none, true, true, 0, le_rfl⟩
  steps := []
  result := ⟨-1, []⟩
  returned := rfl

/-- A client that has just started to watch `/a`. -/
def freshClient : Client := ⟨fileTableInit, (fileMonitorTask plainKernel oneTarget .empty).2, [], false⟩

/-- `7/f` has no target. -/
theorem failed_download_not_retried_no_target :
    let te : TransFileEntry := ⟨⟨[55, 47, 102], by decide, by decide⟩, 1, .fileAdd, .regular, []⟩
    let c := freshClient.receive plainKernel 9 .broadcast te
    Downloads 9 freshClient.ft .broadcast te ∧ noOwners.Fails 9 c te.name ⟨1, .regular, []⟩ ∧
      ∀ path', ¬ Downloads 9 (noOwners.after 9 c te.name ⟨1, .regular, []⟩).ft path' te := by
  intro te c
  have hdownload : Downloads 9 freshClient.ft .broadcast te := by decide
  have hfe : c.ft.view te.name = some ⟨1, .regular, []⟩ := by decide
  have hfail : noOwners.Fails 9 c te.name ⟨1, .regular, []⟩ := ⟨rfl, ⟨-1, none⟩, by decide +kernel, Or.inl (by decide)⟩
  exact ⟨hdownload, hfail, (failed_download_not_retried 9 freshClient .broadcast te hdownload noOwners _ hfe hfail).2⟩

/-- `1/f` has a target but no owner: the download fails, and the same entry does not start it again. -/
theorem no_retry_without_owners :
    let te : TransFileEntry := ⟨⟨[49, 47, 102], by decide, by decide⟩, 1, .fileAdd, .regular, []⟩
    let c := freshClient.receive plainKernel 9 .broadcast te
    Downloads 9 freshClient.ft .broadcast te ∧ c.ft.view te.name = some ⟨1, .regular, []⟩ ∧
      noOwners.Fails 9 c te.name ⟨1, .regular, []⟩ ∧
      ¬ Downloads 9 (noOwners.after 9 c te.name ⟨1, .regular, []⟩).ft .broadcast te := by
  intro te c
  refine ⟨by decide, by decide, ⟨rfl, ⟨-1, none⟩, by decide +kernel, Or.inl (by decide)⟩, ?_⟩
  have hft : (noOwners.after 9 c te.name ⟨1, .regular, []⟩).ft = c.ft := rfl
  rw [hft]
  decide

end TeleSync
