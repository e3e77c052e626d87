import PromptChain.Node.Script
import PromptChain.Proofs.Session.Atomicity
import PromptChain.Proofs.Session.Saving
import PromptChain.Main
import PromptChain.Proofs.Interface.Prunings
import PromptChain.Proofs.Node.RefreshedScripts
import PromptChain.Proofs.Session.Reopening
import PromptChain.Proofs.Node.Search
import PromptChain.Proofs.Interface.WriteBack
import PromptChain.Proofs.Node.Growth
import PromptChain.Proofs.Session.GivenIds
import PromptChain.Proofs.Revision.Patching
import PromptChain.Proofs.Command.Files
import PromptChain.Proofs.Command.Editing
import PromptChain.Proofs.Command.BareChain
import PromptChain.Proofs.Node.SearchedPlaces
import PromptChain.Proofs.Revision.PatchedPlaces
import PromptChain.Proofs.Node.Deletion
import PromptChain.Proofs.Node.Insertion
import PromptChain.Proofs.Node.IndependentEdits
import PromptChain.Proofs.Node.Spelling
import PromptChain.Proofs.Node.LabelSearch
import PromptChain.Proofs.Session.Insertions
import PromptChain.Proofs.Interface.Grouping
import PromptChain.Proofs.Interface.Reordering
import PromptChain.Proofs.RunInputs
import PromptChain.Proofs.Session.Unsaved
import PromptChain.Proofs.Outline
import PromptChain.Proofs.Generator.Growing
