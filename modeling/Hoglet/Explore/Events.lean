import Hoglet.Explore.Dates
import Hoglet.Paging

/-! The event feed: newest first, paged by timestamp. It reads day windows back from the bound, each longer than the
one before, until it has a full page or there are no older files. -/
namespace Hoglet.Explore
open Capture
open Query (Date dateNaive dayUs fromDatetime toDatetime)
open Paging (descending)

/-- Largest page. -/
def maxFeedLimit : Nat := 200
/-- Most day windows one request walks. -/
def maxWindows : Nat := 24
/-- Most files one read may name. -/
def maxFilesPerRead : Nat := 50000

structure RawEvent where
  uuid : String
  event : String
  distinctId : String
  micros : Int
  properties : String
  deriving DecidableEq

/-- A file of the events of one day. -/
structure EventFile where
  path : String
  day : Date
  rows : List RawEvent

/-- The stored events of each project, each in a file of its UTC day and with a uuid of its own. The catalogue takes only days of ten
characters. -/
structure EventSource where
  stored : String → List EventFile
  partitioned : ∀ projectId, ∀ file ∈ stored projectId, ∀ row ∈ file.rows, row.micros / dayUs = file.day.days
  dayText : ∀ projectId, ∀ file ∈ stored projectId, (civil file.day.days).text.length = 10
  distinct : ∀ projectId, (((stored projectId).flatMap EventFile.rows).map RawEvent.uuid).Nodup

/-- Files of a project's events whose day is in `[lo, hi)`. -/
def EventSource.files (source : EventSource) (projectId : String) (lo hi : Date) : List EventFile :=
  (source.stored projectId).filter fun file => lo.days ≤ file.day.days && file.day.days < hi.days

structure FeedQuery where
  event : Option String
  /-- Restrict to these distinct ids. No ids match nothing. -/
  distinctIds : Option (List String)
  /-- Exclusive upper bound. -/
  before : Option DateTime
  limit : Nat
  /-- What the compiled property filters let through. -/
  filters : RawEvent → Bool

inductive FeedError where
  | panicked (panic : Panic)
  | internal (message : String)
  deriving DecidableEq, Repr

/-- Day windows `[lo, hi)`, newest first. -/
structure Windows where
  hi : Date
  /-- At most `maxWindows` doublings keep it far below `i64::MAX`. -/
  span : Int
  issued : Nat

def Windows.new (before : Option DateTime) (now : DateTime) : Except Panic Windows :=
  match before with
  | some before => do
    let last ← minus before oneMicro
    return ⟨(dateNaive last).succ.getD (dateNaive last), 1, 0⟩
  -- Today and tomorrow: clients with fast clocks land in the future.
  | none => .ok ⟨(Date.ofDays ((dateNaive now).days + 2)).getD (dateNaive now), 2, 0⟩

def Windows.next (windows : Windows) : Option ((Date × Date) × Windows) :=
  if windows.issued = maxWindows ∨ windows.hi = Date.min then none
  else
    let lo := (Date.ofDays (windows.hi.days - windows.span)).getD Date.min
    some ((lo, windows.hi), ⟨lo, windows.span * 2, windows.issued + 1⟩)

/-- The files as a source to select from, if there are any. -/
def parquetSource (files : List EventFile) : Except FeedError (Option (List EventFile)) :=
  if files.isEmpty then .ok none
  else if maxFilesPerRead < files.length then
    .error (.internal ("read names " ++ toString files.length ++ " files, above the " ++ toString maxFilesPerRead ++ " limit"))
  else if files.any fun file => file.path.toList.contains (Char.ofNat 0) then .error (.internal "event file path contains NUL")
  else .ok (some files)

/-- The order of the feed's rows. -/
def eventKey (row : RawEvent) : Int ×ₗ String := toLex (row.micros, row.uuid)

/-- What a query asks of a row besides its time. -/
def FeedQuery.asks (query : FeedQuery) (row : RawEvent) : Bool :=
  query.event.all (row.event = ·) && query.distinctIds.all (·.contains row.distinctId) && query.filters row

def FeedQuery.keeps (query : FeedQuery) (row : RawEvent) : Bool :=
  query.before.all (fun before => row.micros < fromDatetime before) && query.asks row

def readWindow (files : List EventFile) (query : FeedQuery) (wanted : Nat) : List RawEvent :=
  (descending eventKey ((files.flatMap EventFile.rows).filter query.keeps)).take wanted

/-- The loop over the windows, with fuel for one more than there can be. -/
def collect (source : EventSource) (projectId : String) (query : FeedQuery) (limit : Nat) :
    Nat → Windows → List RawEvent → Except FeedError (List RawEvent)
  | 0, _, collected => .ok collected
  | fuel + 1, windows, collected =>
    match windows.next with
    | none => .ok collected
    | some ((lo, hi), windows) =>
      match parquetSource (source.files projectId lo hi) with
      | .error e => .error e
      | .ok read =>
        let collected := collected ++ (read.map fun files => readWindow files query (limit + 1 - collected.length)).getD []
        if read.isSome ∧ limit < collected.length then .ok collected
        else if (source.files projectId Date.min lo).isEmpty then .ok collected
        else collect source projectId query limit fuel windows collected

/-- A page and the exclusive bound of the next one. Rows that share their time with the first row of the next page are left to it, unless they
are the whole page. -/
def cutPage (rows : List RawEvent) (limit : Nat) : List RawEvent × Option DateTime :=
  if h : limit < rows.length then
    let boundary := (rows.get ⟨limit, h⟩).micros
    let page := rows.take limit
    let last := (rows.get ⟨limit - 1, by omega⟩).micros
    if last ≠ boundary then (page, some (toDatetime last))
    else
      let keep := (page.takeWhile fun row => row.micros ≠ boundary).length
      if keep = 0 then (page, some (toDatetime boundary)) else (page.take keep, some (toDatetime (boundary + 1)))
  else (rows, none)

/-- `limit.clamp(1, MAX_FEED_LIMIT)`. -/
def FeedQuery.pageLimit (query : FeedQuery) : Nat := Nat.min (Nat.max query.limit 1) maxFeedLimit

def feed (source : EventSource) (projectId : String) (query : FeedQuery) (now : DateTime) : Except FeedError (List RawEvent × Option DateTime) :=
  if query.distinctIds.any List.isEmpty then .ok ([], none)
  else
    match Windows.new query.before now with
    | .error panic => .error (.panicked panic)
    | .ok windows => (collect source projectId query query.pageLimit (maxWindows + 1) windows []).map (cutPage · query.pageLimit)

end Hoglet.Explore
