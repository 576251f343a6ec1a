import LicenseAudit.Descriptor.Walk

/-!
# Which resources carry which notice

Resources refer to notices by id; the texts are resolved afterwards, against a table. Two ids with
one text give one entry. Where two resources of one name would share an entry, the one met first
is kept: the least notice id first, then the order of the walk.
-/

set_option autoImplicit false

namespace LicenseAudit

/-- The notices met on a walk. -/
structure NoticeIndex where
  /-- The resources by the id of the notice that they refer to. -/
  byNotice : Table Resources
  copyrightNotices : NameSet
deriving DecidableEq

namespace NoticeIndex

def start : NoticeIndex := ⟨∅, ∅⟩

def walker : Walker NoticeIndex where
  visit t stop :=
    match stop with
    | .grant g =>
      match g.copyrightNotice with
      | some notice => { t with copyrightNotices := t.copyrightNotices.insertNew notice }
      | none => t
    | .resource r =>
      match r.noticeId with
      | some id =>
        { t with byNotice := t.byNotice.update id fun rs => (rs.getD ∅).insertNew r }
      | none => t
    | .directory _ | .holding _ => t

/-- The ids of the notices referred to, in order. -/
def noticeIds (t : NoticeIndex) : List String := t.byNotice.keys

/-- Puts the resources of one notice under its text. -/
def resolveNotice (texts : Table String) (resolved : Table Resources)
    (entry : String × Resources) : Except Fault (Table Resources) :=
  match texts.get? entry.1 with
  | some text => .ok (resolved.update text fun rs => (rs.getD ∅).insertAll entry.2.toList)
  | none => .error (.unknownNotice entry.1)

/-- The resources by the text of their notice. The least id without a text is a fault. -/
def resourceNotices (t : NoticeIndex) (texts : Table String) : Except Fault (Table Resources) :=
  t.byNotice.toList.foldlM (resolveNotice texts) ∅

/-- The copyright notices of grants, without the primary one. -/
def otherNotices (t : NoticeIndex) (primary : Option String) : NameSet :=
  t.copyrightNotices.filter fun notice => primary != some notice

end NoticeIndex

end LicenseAudit
