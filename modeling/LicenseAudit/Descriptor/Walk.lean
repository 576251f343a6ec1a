import LicenseAudit.Descriptor.Basic

/-!
# The walk over a descriptor

There is one way to walk over what a descriptor declares, and every fact about its content is
gathered by a `Walker` on this walk. The order is fixed: sections by name; in each the section
itself, then its public domain holding by holding, then its grants in turn; in a grant the grant
itself, then its holdings; in a holding the holding itself, then its resources.

A walker is asked before each layer whether to enter it, and sees nothing of a layer that it
declines. **The public domain is a layer of its own:** its holdings are walked over even by a
walker that declines the holdings of grants.
-/

set_option autoImplicit false

namespace LicenseAudit

inductive Stop where
  /-- A section, before its content. -/
  | directory (s : Section)
  /-- A grant, before its holdings. -/
  | grant (g : Grant)
  /-- A holding, before its resources. -/
  | holding (h : Holding)
  | resource (r : Resource)
deriving DecidableEq

inductive Layer where
  | publicDomain
  | grants
  | holdings
  | resources
deriving DecidableEq

/-- Gathers a state on a walk. -/
structure Walker (σ : Type) where
  /-- Whether to enter a layer. -/
  enters : σ → Layer → Bool := fun _ _ => true
  /-- The state after a stop. -/
  visit : σ → Stop → σ

/-- Walks over a resource. -/
def Resource.walk {σ : Type} (r : Resource) (w : Walker σ) (s : σ) : σ := w.visit s (.resource r)

def Holding.walk {σ : Type} (h : Holding) (w : Walker σ) (s : σ) : σ :=
  let s := w.visit s (.holding h)
  if w.enters s .resources then h.resources.toList.foldl (fun s r => r.walk w s) s else s

def Grant.walk {σ : Type} (g : Grant) (w : Walker σ) (s : σ) : σ :=
  let s := w.visit s (.grant g)
  if w.enters s .holdings then g.holdings.toList.foldl (fun s h => h.walk w s) s else s

def Section.walk {σ : Type} (c : Section) (w : Walker σ) (s : σ) : σ :=
  let s := w.visit s (.directory c)
  let s :=
    if w.enters s .publicDomain then c.publicDomain.toList.foldl (fun s h => h.walk w s) s else s
  if w.enters s .grants then c.grants.foldl (fun s g => g.walk w s) s else s

/-- Walks from a stop on: over the stop, and over what is below it. -/
def Stop.walk {σ : Type} (stop : Stop) (w : Walker σ) (s : σ) : σ :=
  match stop with
  | .directory c => c.walk w s
  | .grant g => g.walk w s
  | .holding h => h.walk w s
  | .resource r => r.walk w s

namespace Descriptor

/-- Walks over every section, by name. -/
def walk {σ : Type} (d : Descriptor) (w : Walker σ) (s : σ) : σ :=
  d.sections.toList.foldl (fun s c => c.walk w s) s

/-- Walks over the section of one directory, if there is one. -/
def walkSection? {σ : Type} (d : Descriptor) (name : String) (w : Walker σ) (s : σ) : Option σ :=
  (d.section? name).map fun c => c.walk w s

end Descriptor

end LicenseAudit
